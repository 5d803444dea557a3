import WasmRecorder.Boundarylog.Rendering

/-!
# Reconstruction inverts the rendering

The reader of a trace is a stack machine with a run of values in flight. This file runs it over
the records the producer renders.

* `Forest.reads_render` — the reader follows the renderer through a whole forest, at any depth.
* `reconstructCrossings_events` — so the crossings of a forest are recovered.
-/

namespace Boundarylog

open Fallible

variable {v : Vintage}

theorem getElem?_middle {α : Type} (l : List α) (x : α) (r : List α) :
    (l ++ x :: r)[l.length]? = some x := by
  rw [List.getElem?_append_right (le_refl _), Nat.sub_self]
  rfl

theorem modify_middle {α : Type} (l : List α) (x : α) (r : List α) (f : α → α) :
    (l ++ x :: r).modify l.length f = l ++ f x :: r := by
  induction l with
  | nil => rfl
  | cons y l ih => exact congrArg (y :: ·) ih

/-! ### Closing a run -/

namespace Assembler

/-- The crossings and the stack once a run has been applied to them. -/
def runClosed (cs : List Crossing) (stack : List OpenCrossing) (run : ValueRun) :
    Except AssemblyError (List Crossing × List OpenCrossing) :=
  (closeRun { crossings := cs, stack, pending := some run }).map fun a => (a.crossings, a.stack)

theorem closeRun_eq {a : Assembler} {run : ValueRun} (hrun : a.pending = some run) :
    a.closeRun = (runClosed a.crossings a.stack run).map fun p =>
      { a with crossings := p.1, stack := p.2, pending := none } := by
  obtain ⟨fs, vs, cs, stack, pending, start, ends, saw, state⟩ := a
  obtain rfl : pending = some run := hrun
  rw [runClosed, closeRun, closeRun]
  dsimp only
  cases run.role with
  | arg =>
    dsimp only [closeDanglingImports, applyArgs]
    cases parseImportLabel run.label with
    | some index => rfl
    | none =>
      dsimp only
      cases closeDangling cs [] false stack with
      | nil => rfl
      | cons o rest =>
        dsimp only
        split_ifs <;> rfl
  | ret =>
    dsimp only [closeDanglingImports, applyResults, applyLoneResults, top]
    cases closeDangling cs run.label false stack with
    | nil =>
      dsimp only
      cases parseImportLabel run.label <;> rfl
    | cons o rest =>
      dsimp only
      cases cs[o.idx]? with
      | none =>
        dsimp only [Option.map]
        cases parseImportLabel run.label <;> rfl
      | some c =>
        dsimp only [Option.map]
        split_ifs
        · cases parseImportLabel run.label <;> rfl
        · rfl
        · rfl

section

variable {cs : List Crossing} {stack rest : List OpenCrossing} {o : OpenCrossing} {c : Crossing}
  {label : Text} {index : UInt32} (vs : List RawValue)

theorem runClosed_arg_export (hdang : closeDangling cs [] false stack = o :: rest)
    (hlabel : o.label = label) (hparse : parseImportLabel label = none) :
    runClosed cs stack ⟨label, .arg, vs⟩ =
      .ok (cs.modify o.idx fun c => { c with args := vs }, o :: rest) := by
  simp only [runClosed, closeRun, closeDanglingImports, hdang, applyArgs, hparse, hlabel, ne_eq,
    not_true_eq_false, if_false, update, Except.map]

theorem runClosed_arg_import (hdang : closeDangling cs [] false stack = rest)
    (hparse : parseImportLabel label = some index) :
    runClosed cs stack ⟨label, .arg, vs⟩ =
      .ok (cs ++ [{ seq := cs.length, depth := rest.length, kind := .import, index, args := vs }],
        ⟨cs.length, label⟩ :: rest) := by
  simp only [runClosed, closeRun, closeDanglingImports, hdang, applyArgs, hparse, openNew,
    Except.map]

/-- A result run completes the crossing of its label on top, and ends an import that has no
markers of its own. -/
theorem runClosed_ret (hdang : closeDangling cs label false stack = o :: rest)
    (hc : cs[o.idx]? = some c) (hlabel : o.label = label) :
    runClosed cs stack ⟨label, .ret, vs⟩ =
      .ok (cs.modify o.idx fun c => { c with results := vs, hasResults := true },
        if (parseImportLabel label).isSome ∧ ¬ c.markerBracketed then rest else o :: rest) := by
  simp only [runClosed, closeRun, closeDanglingImports, hdang, applyResults, top, hc, hlabel,
    Option.map_some, ne_eq, not_true_eq_false, if_false]
  split_ifs <;> rfl

theorem runClosed_ret_lone (hdang : closeDangling cs label false stack = o :: rest)
    (hc : cs[o.idx]? = some c) (hlabel : o.label ≠ label)
    (hparse : parseImportLabel label = some index) :
    runClosed cs stack ⟨label, .ret, vs⟩ =
      .ok (cs ++ [{ seq := cs.length, depth := rest.length + 1, kind := .import, index
                    results := vs, hasResults := true }], o :: rest) := by
  simp only [runClosed, closeRun, closeDanglingImports, hdang, applyResults, top, hc,
    Option.map_some, ne_eq, hlabel, not_false_eq_true, if_true, applyLoneResults, hparse, append,
    Except.map, List.length_cons]

end

/-- The innermost open crossing is not one that the next record may end. -/
def Stays (cs : List Crossing) : List OpenCrossing → Prop
  | [] => True
  | o :: _ => ∃ c, cs[o.idx]? = some c ∧ (c.kind = .export ∨ c.markerBracketed = true)

theorem Stays.closeDangling {cs : List Crossing} {stack : List OpenCrossing} (h : Stays cs stack)
    (keep : Text) : closeDangling cs keep false stack = stack := by
  cases stack with
  | nil => rfl
  | cons o rest =>
    obtain ⟨c, hc, hstays⟩ := h
    rw [Assembler.closeDangling, hc]
    dsimp only
    by_cases hkind : c.kind = .import
    · have hmark : c.markerBracketed = true := by
        rcases hstays with hexp | hmark
        · rw [hkind] at hexp
          cases hexp
        · exact hmark
      rw [if_neg (not_not_intro hkind)]
      split_ifs
      · rfl
      · rfl
      · next hnot => exact absurd ⟨hmark, not_false⟩ hnot
    · rw [if_pos hkind]

theorem Stays.append {cs more : List Crossing} {stack : List OpenCrossing} (h : Stays cs stack) :
    Stays (cs ++ more) stack := by
  cases stack with
  | nil => trivial
  | cons o rest =>
    obtain ⟨c, hc, hstays⟩ := h
    refine ⟨c, ?_, hstays⟩
    rw [List.getElem?_append_left (List.getElem?_eq_some_iff.mp hc).1, hc]

end Assembler

/-! ### What the reader holds

The assertions below speak of the crossings, the stack and the run in flight of an assembler
that has read the records of a builder. -/

/-- An assembler's state as far as the reconstruction of crossings depends on it. -/
structure Assembler.Holds (a : Assembler) (funcs varNames : List Text) (cs : List Crossing)
    (stack : List OpenCrossing) (pending : Option ValueRun) : Prop where
  functions : a.functions.map FunctionRecord.name = funcs
  varNames : a.varNames = varNames
  crossings : a.crossings = cs
  stack : a.stack = stack
  pending : a.pending = pending

/-- The reader of a builder's records holds these crossings, this stack and this run. -/
def Builder.Reads (b : Builder) (cs : List Crossing) (stack : List OpenCrossing)
    (pending : Option ValueRun) : Prop :=
  ∃ a, feed Assembler.push {} b.events = .ok a ∧ a.Holds b.funcs b.varNames cs stack pending

/-- The crossings and the stack once the run in flight has been closed. -/
def Closes (cs : List Crossing) (stack : List OpenCrossing) (pending : Option ValueRun)
    (cs' : List Crossing) (stack' : List OpenCrossing) : Prop :=
  match pending with
  | none => cs' = cs ∧ stack' = stack
  | some run => Assembler.runClosed cs stack run = .ok (cs', stack')

namespace Assembler.Holds

variable {a : Assembler} {funcs varNames : List Text} {cs cs' : List Crossing}
  {stack stack' : List OpenCrossing} {pending : Option ValueRun}

theorem note (h : a.Holds funcs varNames cs stack pending) :
    a.noteGroupBoundary.Holds funcs varNames cs stack pending := by
  rw [noteGroupBoundary]
  split_ifs
  · exact h
  · exact ⟨h.functions, h.varNames, h.crossings, h.stack, h.pending⟩

theorem closeRun (h : a.Holds funcs varNames cs stack pending)
    (hclose : Closes cs stack pending cs' stack') :
    ∃ a', a.closeRun = .ok a' ∧ a'.Holds funcs varNames cs' stack' none := by
  cases pending with
  | none =>
    obtain ⟨rfl, rfl⟩ := hclose
    refine ⟨a, ?_, h⟩
    rw [Assembler.closeRun, h.pending]
  | some run =>
    refine ⟨{ a with crossings := cs', stack := stack', pending := none }, ?_,
      h.functions, h.varNames, rfl, rfl, rfl⟩
    have hrun : runClosed a.crossings a.stack run = .ok (cs', stack') := by
      rw [h.crossings, h.stack]
      exact hclose
    rw [closeRun_eq h.pending, hrun]
    rfl

theorem top_nil (h : a.Holds funcs varNames cs [] pending) : a.top = none := by
  rw [top, h.stack]

theorem top_cons {o : OpenCrossing} {rest : List OpenCrossing} {c : Crossing}
    (h : a.Holds funcs varNames cs (o :: rest) pending) (hc : cs[o.idx]? = some c) :
    a.top = some (o, c) := by
  rw [top, h.stack, h.crossings]
  dsimp only
  rw [hc]
  rfl

theorem pop {o : OpenCrossing} {rest : List OpenCrossing}
    (h : a.Holds funcs varNames cs (o :: rest) pending) :
    a.pop.Holds funcs varNames cs rest pending :=
  ⟨h.functions, h.varNames, h.crossings, by rw [Assembler.pop, h.stack]; rfl, h.pending⟩

end Assembler.Holds

namespace Builder

variable {b : Builder} {cs cs' : List Crossing} {stack stack' rest : List OpenCrossing}
  {pending : Option ValueRun} {o : OpenCrossing} {c : Crossing}

theorem Reads.emit {ev : TraceEvent} {funcs varNames : List Text} {pending' : Option ValueRun}
    (h : b.Reads cs stack pending)
    (hrec : ∀ a : Assembler, a.Holds b.funcs b.varNames cs stack pending →
      ∃ a' : Assembler, a.pushRecord ev = .ok a' ∧ a'.Holds funcs varNames cs' stack' pending') :
    Reads { b.emit ev with funcs, varNames } cs' stack' pending' := by
  obtain ⟨a, hfeed, ha⟩ := h
  obtain ⟨a', hpush, ha'⟩ := hrec a ha
  refine ⟨a'.noteGroupBoundary, ?_, ha'.note⟩
  change feed Assembler.push {} (b.events ++ [ev]) = _
  rw [feed_append_of_ok hfeed, feed_singleton, Assembler.push, hpush]
  rfl

theorem Reads.step (h : b.Reads cs stack none) (site : Site) : (b.step site).Reads cs stack none :=
  h.emit fun _ ha => ha.closeRun ⟨rfl, rfl⟩

theorem Reads.introduceFunction (h : b.Reads cs stack none) (name : Text) (site : Site) :
    (b.introduceFunction name site).Reads cs stack none := by
  rw [Builder.introduceFunction]
  split_ifs
  · exact h
  · refine h.emit fun a ha => ?_
    obtain ⟨a₁, hrun, ha₁⟩ := ha.closeRun ⟨rfl, rfl⟩
    refine ⟨{ a₁ with functions := a₁.functions ++ [⟨name, site.pathId, site.line⟩] }, ?_, ?_,
      ha₁.varNames, ha₁.crossings, ha₁.stack, ha₁.pending⟩
    · exact bind_eq_ok.mpr ⟨a₁, hrun, rfl⟩
    · rw [List.map_append, ha₁.functions]
      rfl

theorem mem_introduceFunction (b : Builder) (name : Text) (site : Site) :
    name ∈ (b.introduceFunction name site).funcs := by
  rw [Builder.introduceFunction]
  split_ifs with hmem
  · exact hmem
  · exact List.mem_append_right _ (List.mem_singleton.mpr rfl)

theorem Reads.introduceName (h : b.Reads cs stack pending) (name : Text) :
    (b.introduceName name).Reads cs stack pending := by
  rw [Builder.introduceName]
  split_ifs
  · exact h
  · refine h.emit fun a ha => ⟨a.pushVariableName name, rfl, ha.functions, ?_, ha.crossings,
      ha.stack, ha.pending⟩
    rw [Assembler.pushVariableName, ha.varNames]

theorem mem_introduceName (b : Builder) (name : Text) :
    name ∈ (b.introduceName name).varNames := by
  rw [Builder.introduceName]
  split_ifs with hmem
  · exact hmem
  · exact List.mem_append_right _ (List.mem_singleton.mpr rfl)

theorem Reads.call (h : b.Reads cs stack none) {name : Text} (hname : name ∈ b.funcs) :
    (b.call name).Reads
      (cs ++ [{ seq := cs.length, depth := stack.length, kind := .export, name }])
      (⟨cs.length, name⟩ :: stack) none := by
  refine h.emit fun a ha => ?_
  obtain ⟨a₁, hrun, ha₁⟩ := ha.closeRun ⟨rfl, rfl⟩
  have hget : (a₁.functions.map FunctionRecord.name)[b.funcs.idxOf name]? = some name := by
    rw [ha₁.functions, List.getElem?_idxOf hname]
  rw [List.getElem?_map, Option.map_eq_some_iff] at hget
  obtain ⟨f, hf, rfl⟩ := hget
  refine ⟨a₁.openNew
      { seq := a₁.crossings.length, depth := a₁.stack.length, kind := .export, name := f.name }
      f.name, ?_, ha₁.functions, ha₁.varNames, ?_, ?_, ha₁.pending⟩
  · refine bind_eq_ok.mpr ⟨a₁, hrun, ?_⟩
    dsimp only
    rw [hf]
    rfl
  · rw [Assembler.openNew, ha₁.crossings, ha₁.stack]
  · rw [Assembler.openNew, ha₁.crossings, ha₁.stack]

/-! ### Tuples -/

/-- The run in flight after these values. -/
def runOf (label : Text) (role : Role) (vs : List RawValue) : Option ValueRun :=
  if vs = [] then none else some ⟨label, role, vs⟩

theorem runOf_continues (label : Text) (role : Role) {vs : List RawValue} {slot : Nat}
    (hslot : slot = vs.length) :
    (runOf label role vs).any (fun run => Assembler.startsRun run ⟨label, role, slot⟩) = false ∧
      (runOf label role vs).getD ⟨label, role, []⟩ = ⟨label, role, vs⟩ := by
  rw [runOf]
  split_ifs with hvs
  · rw [hvs]
    exact ⟨rfl, rfl⟩
  · have hpos : slot ≠ 0 := by
      rw [hslot]
      exact fun h => hvs (List.length_eq_zero_iff.mp h)
    simp [Assembler.startsRun, hpos]

theorem Reads.value {label : Text} {role : Role} {vs : List RawValue} {slot : Nat}
    (h : b.Reads cs stack (runOf label role vs)) (hlabel : label ≠ []) (hslot : slot = vs.length)
    (hfits : slot < 2 ^ 63) (v : DiskValue) :
    (b.value label role slot v).Reads cs stack (runOf label role (vs ++ [v.raw])) := by
  refine (h.introduceName (bindingName label role slot)).emit fun a ha => ?_
  obtain ⟨hcontinues, hrun⟩ := runOf_continues label role hslot
  have hget := List.getElem?_idxOf (b.mem_introduceName (bindingName label role slot))
  rw [← ha.varNames] at hget
  refine ⟨{ a with pending := some ⟨label, role, vs ++ [v.raw]⟩ }, ?_, ha.functions, ha.varNames,
    ha.crossings, ha.stack, ?_⟩
  · change a.pushValue _ = _
    rw [Assembler.pushValue, ← ha.varNames]
    dsimp only
    rw [hget]
    dsimp only
    rw [parseBindingName_bindingName hlabel role hfits]
    dsimp only
    rw [unmarshalRaw, v.decodes]
    refine bind_eq_ok.mpr ⟨a, ?_, ?_⟩
    · rw [Assembler.closeRunBefore, ha.pending, hcontinues]
      rfl
    · rw [Assembler.extendRun, ha.pending, hrun]
      exact if_neg (not_not_intro hslot)
  · rw [runOf, if_neg (by simp)]

theorem Reads.slots {label : Text} {role : Role} (done : List RawValue) {vs : List DiskValue}
    (h : b.Reads cs stack (runOf label role done)) (hlabel : label ≠ []) {slot : Nat}
    (hslot : slot = done.length) (hfits : slot + vs.length < 2 ^ 63) :
    (slots label role slot vs b).Reads cs stack
      (runOf label role (done ++ vs.map DiskValue.raw)) := by
  induction vs generalizing b done slot with
  | nil =>
    rw [List.map_nil, List.append_nil]
    exact h
  | cons v vs ih =>
    rw [List.length_cons] at hfits
    have hslot' : slot + 1 = (done ++ [v.raw]).length := by
      rw [List.length_append, hslot]
      rfl
    have hnext := ih (done ++ [v.raw]) (h.value hlabel hslot (by omega) v) hslot' (by omega)
    rw [List.append_assoc] at hnext
    exact hnext

theorem Reads.values {label : Text} (t : Tuple) (h : b.Reads cs stack none)
    (hlabel : t.values ≠ [] → label ≠ []) (site : Site) (role : Role) :
    (b.values site label role t).Reads cs stack (runOf label role t.raws) := by
  rw [Builder.values, Tuple.raws]
  split_ifs with hempty
  · rw [hempty]
    exact h
  · have hfits := t.fits
    exact Reads.slots [] (h.step site) (hlabel hempty) rfl (by omega)

/-! ### Markers and returns -/

section

variable {index : UInt32} {enter : Bool}

theorem Reads.marker {kind : CrossingKind} {cs₁ : List Crossing} {stack₁ : List OpenCrossing}
    (h : b.Reads cs stack pending) (hclose : Closes cs stack pending cs₁ stack₁)
    (m : MarkerEvent kind index enter)
    (hmark : ∀ a : Assembler, a.Holds b.funcs b.varNames cs₁ stack₁ none →
      ∃ a', a.pushMarker ⟨kind, index, enter⟩ = .ok a' ∧
        a'.Holds b.funcs b.varNames cs' stack' none) :
    (b.marker m.raw).Reads cs' stack' none := by
  refine h.emit fun a ha => ?_
  obtain ⟨a₁, hrun, ha₁⟩ := ha.closeRun hclose
  obtain ⟨a', hpush, ha'⟩ := hmark a₁ ha₁
  refine ⟨a', ?_, ha'⟩
  change a.pushEvent m.raw = _
  refine bind_eq_ok.mpr ⟨a₁, hrun, ?_⟩
  rw [m.parseHostStateMarker, m.parseRealmMarker]
  exact hpush

theorem Reads.marker_export {kind : CrossingKind} (hkind : kind = .export)
    (h : b.Reads cs stack pending) (hclose : Closes cs stack pending cs' stack')
    (m : MarkerEvent kind index enter) : (b.marker m.raw).Reads cs' stack' none := by
  subst hkind
  exact h.marker hclose m fun a ha => ⟨a, rfl, ha⟩

theorem Reads.marker_adopt (h : b.Reads cs stack pending)
    (hclose : Closes cs stack pending cs' (o :: rest)) (m : MarkerEvent .import index true)
    (hc : cs'[o.idx]? = some c) (hkind : c.kind = .import) (hindex : c.index = index)
    (hmark : c.markerBracketed = false) :
    (b.marker m.raw).Reads (cs'.modify o.idx fun c => { c with markerBracketed := true })
      (o :: rest) none := by
  refine h.marker hclose m fun a ha => ?_
  have htop : Assembler.top { a with sawImportMarker := true } = some (o, c) := ha.top_cons hc
  have hadopt : c.kind = .import ∧ c.index = index ∧ ¬ c.markerBracketed = true :=
    ⟨hkind, hindex, by rw [hmark]; exact Bool.false_ne_true⟩
  refine ⟨{ a with
    sawImportMarker := true
    crossings := a.crossings.modify o.idx fun c => { c with markerBracketed := true } }, ?_,
    ha.functions, ha.varNames, by rw [ha.crossings], ha.stack, ha.pending⟩
  change Except.ok (Assembler.openMarkedImport { a with sawImportMarker := true } index) = _
  rw [Assembler.openMarkedImport, htop]
  exact congrArg Except.ok (if_pos hadopt)

theorem Reads.marker_open (h : b.Reads cs stack none) (m : MarkerEvent .import index true)
    (hstays : Assembler.Stays cs stack) :
    (b.marker m.raw).Reads
      (cs ++ [{ seq := cs.length, depth := stack.length, kind := .import, index
                markerBracketed := true }])
      (⟨cs.length, importLabel index⟩ :: stack) none := by
  refine h.marker ⟨rfl, rfl⟩ m fun a ha => ?_
  refine ⟨Assembler.openNew { a with sawImportMarker := true }
      { seq := a.crossings.length, depth := a.stack.length, kind := .import, index
        markerBracketed := true } (importLabel index), ?_, ha.functions, ha.varNames,
    by rw [Assembler.openNew, ha.crossings, ha.stack],
    by rw [Assembler.openNew, ha.crossings, ha.stack], ha.pending⟩
  change Except.ok (Assembler.openMarkedImport { a with sawImportMarker := true } index) = _
  rw [Assembler.openMarkedImport]
  cases hst : stack with
  | nil =>
    rw [hst] at ha
    rw [show Assembler.top { a with sawImportMarker := true } = none from ha.top_nil]
  | cons o rest =>
    rw [hst] at ha hstays
    obtain ⟨c, hc, hkeep⟩ := hstays
    rw [show Assembler.top { a with sawImportMarker := true } = some (o, c) from ha.top_cons hc]
    refine congrArg Except.ok (if_neg ?_)
    rintro ⟨hkind, -, hmark⟩
    rcases hkeep with hexp | hbr
    · rw [hkind] at hexp
      cases hexp
    · exact hmark hbr

theorem Reads.marker_leave (h : b.Reads cs stack pending)
    (hclose : Closes cs stack pending cs' (o :: rest)) (m : MarkerEvent .import index false)
    (hc : cs'[o.idx]? = some c) (hkind : c.kind = .import) (hindex : c.index = index)
    (hmark : c.markerBracketed = true) : (b.marker m.raw).Reads cs' rest none := by
  refine h.marker hclose m fun a ha => ?_
  have ha' : Assembler.Holds { a with sawImportMarker := true } b.funcs b.varNames cs' (o :: rest)
      none := ⟨ha.functions, ha.varNames, ha.crossings, ha.stack, ha.pending⟩
  refine ⟨Assembler.pop { a with sawImportMarker := true }, ?_, ha'.pop⟩
  change Assembler.closeMarkedImport { a with sawImportMarker := true } index = _
  rw [Assembler.closeMarkedImport, ha'.top_cons hc]
  exact if_pos ⟨hkind, hindex, hmark⟩

end

theorem Reads.ret (h : b.Reads cs stack pending) (hclose : Closes cs stack pending cs' stack')
    (hdang : Assembler.closeDangling cs' [] false stack' = o :: rest) (hc : cs'[o.idx]? = some c)
    (hkind : c.kind = .export) (t : Tuple) : (b.ret t).Reads cs' rest none := by
  refine h.emit fun a ha => ?_
  obtain ⟨a₁, hrun, ha₁⟩ := ha.closeRun hclose
  have ha₂ : (a₁.closeDanglingImports [] false).Holds b.funcs b.varNames cs' (o :: rest) none := by
    refine ⟨ha₁.functions, ha₁.varNames, ha₁.crossings, ?_, ha₁.pending⟩
    rw [Assembler.closeDanglingImports, ha₁.crossings, ha₁.stack]
    exact hdang
  refine ⟨_, ?_, ha₂.pop⟩
  change a.pushReturn = _
  refine bind_eq_ok.mpr ⟨a₁, hrun, ?_⟩
  dsimp only
  rw [ha₂.top_cons hc]
  exact if_neg (not_not_intro hkind)

end Builder

/-! ### Nodes -/

/-- A node's crossing before its results are known. -/
def Node.entered (n : Node v) (seq depth : Nat) : Crossing :=
  { n.crossing seq depth with results := [], hasResults := false }

theorem Node.entered_eq {n : Node v} (h : n.results.values = []) (seq depth : Nat) :
    n.entered seq depth = n.crossing seq depth := by
  have hraws : n.results.raws = [] := by rw [Tuple.raws, h]; rfl
  rw [entered, crossing, hraws]
  rfl

theorem Node.crossing_eq {n : Node v} (h : n.results.values ≠ []) (seq depth : Nat) :
    n.crossing seq depth =
      { n.entered seq depth with results := n.results.raws, hasResults := true } := by
  have hraws : n.results.raws ≠ [] := fun hraws => h (List.map_eq_nil_iff.mp hraws)
  simp only [entered, crossing, hraws, ne_eq, not_false_eq_true, decide_true]

theorem Node.entered_export {n : Node v} {name : Text} {index : UInt32}
    (hedge : n.edge = .export name index) (seq depth : Nat) :
    n.entered seq depth =
      { seq, depth, kind := .export, name, args := n.args.raws } := by
  simp only [entered, crossing, hedge, Edge.kind, reduceCtorEq, and_false, decide_false]

theorem Node.entered_import {n : Node v} {index : UInt32} (hedge : n.edge = .import index)
    (seq depth : Nat) :
    n.entered seq depth =
      { seq, depth, kind := .import, index, args := n.args.raws
        markerBracketed := decide (v = .m39) } := by
  simp only [entered, crossing, hedge, Edge.kind, and_true]

/-- A node whose records cannot be read as another edge's: the value runs of an export are
labelled by its name, those of an import by `import #` and its index. -/
def Node.Legible (n : Node v) : Prop :=
  match n.edge with
  | .export name _ => name ≠ [] ∧ parseImportLabel name = none ∨
      n.args.values = [] ∧ n.results.values = []
  | .import _ => True

theorem Node.Legible.label {n : Node v} (h : n.Legible) {name : Text} {index : UInt32}
    (hedge : n.edge = .export name index)
    (hvalues : n.args.values ≠ [] ∨ n.results.values ≠ []) :
    name ≠ [] ∧ parseImportLabel name = none := by
  rw [Legible, hedge] at h
  rcases h with hname | ⟨hargs, hres⟩
  · exact hname
  · rcases hvalues with hne | hne
    · exact absurd hargs hne
    · exact absurd hres hne

namespace Builder

variable {b : Builder} {cs inner : List Crossing} {stack stack' : List OpenCrossing} {n : Node v}
  {name : Text} {index : UInt32}

theorem runOf_eq {label : Text} {role : Role} {t : Tuple} (h : t.values ≠ []) :
    runOf label role t.raws = some ⟨label, role, t.raws⟩ := by
  refine if_neg fun hraws => h ?_
  exact List.map_eq_nil_iff.mp hraws

theorem Edge.markedAs_export (v : Vintage) (name : Text) (index : UInt32) :
    (Edge.export name index).markedAs v = .export := by
  cases v <;> rfl

theorem Reads.enter_export (h : b.Reads cs stack none) (hedge : n.edge = .export name index)
    (hlabel : n.args.values ≠ [] → name ≠ [] ∧ parseImportLabel name = none) :
    (b.enter n).Reads (cs ++ [n.entered cs.length stack.length]) (⟨cs.length, name⟩ :: stack)
      none := by
  rw [Node.entered_export hedge]
  obtain ⟨edge, site, args, results, enter, leave⟩ := n
  obtain rfl : edge = .export name index := hedge
  have hcall := ((h.step site).introduceFunction name site).call (mem_introduceFunction _ name site)
  have hvalues := hcall.values args (fun hargs => (hlabel hargs).1) site .arg
  refine hvalues.marker_export (Edge.markedAs_export v name index) ?_ enter
  by_cases hargs : args.values = []
  · have hraws : args.raws = [] := by rw [Tuple.raws, hargs]; rfl
    rw [hraws]
    exact ⟨rfl, rfl⟩
  · rw [runOf_eq hargs]
    have hstays : Assembler.Stays
        (cs ++ [{ seq := cs.length, depth := stack.length, kind := .export, name }])
        (⟨cs.length, name⟩ :: stack) := ⟨_, getElem?_middle cs _ [], .inl rfl⟩
    refine (Assembler.runClosed_arg_export _ (hstays.closeDangling []) rfl (hlabel hargs).2).trans ?_
    rw [modify_middle]

theorem Reads.leave_export {seq depth : Nat}
    (h : b.Reads (cs ++ n.entered seq depth :: inner) stack' none)
    (hedge : n.edge = .export name index)
    (hlabel : n.results.values ≠ [] → name ≠ [] ∧ parseImportLabel name = none)
    (hdang : ∀ keep, keep = [] ∨ keep = name →
      Assembler.closeDangling (cs ++ n.entered seq depth :: inner) keep false stack' =
        ⟨cs.length, name⟩ :: stack) :
    (b.leave n).Reads (cs ++ n.crossing seq depth :: inner) stack none := by
  have hkind : (n.crossing seq depth).kind = .export := by
    rw [Node.crossing, hedge]
    rfl
  -- the results are in place, and the frame is on top once nothing dangles
  obtain ⟨stack₁, hclose, htop⟩ : ∃ stack₁,
      Closes (cs ++ n.entered seq depth :: inner) stack' (runOf name .ret n.results.raws)
        (cs ++ n.crossing seq depth :: inner) stack₁ ∧
      Assembler.closeDangling (cs ++ n.crossing seq depth :: inner) [] false stack₁ =
        ⟨cs.length, name⟩ :: stack := by
    by_cases hres : n.results.values = []
    · have hraws : n.results.raws = [] := by rw [Tuple.raws, hres]; rfl
      rw [hraws, ← Node.entered_eq hres]
      exact ⟨stack', ⟨rfl, rfl⟩, hdang [] (.inl rfl)⟩
    · have hstays : Assembler.Stays (cs ++ n.crossing seq depth :: inner)
          (⟨cs.length, name⟩ :: stack) := ⟨_, getElem?_middle cs _ inner, .inl hkind⟩
      refine ⟨_, ?_, hstays.closeDangling []⟩
      rw [runOf_eq hres]
      refine (Assembler.runClosed_ret _ (hdang name (.inr rfl)) (getElem?_middle cs _ inner)
        rfl).trans ?_
      rw [modify_middle, ← Node.crossing_eq hres, (hlabel hres).2]
      rfl
  obtain ⟨edge, site, args, results, enter, leave⟩ := n
  obtain rfl : edge = .export name index := hedge
  have hret := (h.values results (fun hres => (hlabel hres).1) site .ret).ret hclose htop
    (getElem?_middle cs _ inner) hkind results
  exact hret.marker_export (Edge.markedAs_export v name index) ⟨rfl, rfl⟩ leave

theorem Reads.enter_import {n : Node .m39} (h : b.Reads cs stack none)
    (hedge : n.edge = .import index) (hstays : Assembler.Stays cs stack) :
    (b.enter n).Reads (cs ++ [n.entered cs.length stack.length])
      (⟨cs.length, importLabel index⟩ :: stack) none := by
  rw [Node.entered_import hedge]
  obtain ⟨edge, site, args, results, enter, leave⟩ := n
  obtain rfl : edge = .import index := hedge
  have hvalues := h.values args (fun _ => importLabel_ne_nil index) site .arg
  by_cases hargs : args.values = []
  · have hraws : args.raws = [] := by rw [Tuple.raws, hargs]; rfl
    rw [hraws] at hvalues ⊢
    exact hvalues.marker_open enter hstays
  · rw [runOf_eq hargs] at hvalues
    have hadopt := hvalues.marker_adopt (Assembler.runClosed_arg_import _ (hstays.closeDangling [])
      (parseImportLabel_importLabel index)) enter (getElem?_middle cs _ []) rfl rfl rfl
    rw [modify_middle] at hadopt
    exact hadopt

theorem Reads.leave_import {n : Node .m39} {seq depth : Nat}
    (h : b.Reads (cs ++ n.entered seq depth :: inner) (⟨cs.length, importLabel index⟩ :: stack)
      none) (hedge : n.edge = .import index) :
    (b.leave n).Reads (cs ++ n.crossing seq depth :: inner) stack none := by
  have hentered := Node.entered_import hedge seq depth
  have hcrossing : (n.crossing seq depth).kind = .import ∧ (n.crossing seq depth).index = index ∧
      (n.crossing seq depth).markerBracketed = true := by
    simp only [Node.crossing, hedge, Edge.kind, and_self, decide_true]
  have hclose : Closes (cs ++ n.entered seq depth :: inner)
      (⟨cs.length, importLabel index⟩ :: stack) (runOf (importLabel index) .ret n.results.raws)
      (cs ++ n.crossing seq depth :: inner) (⟨cs.length, importLabel index⟩ :: stack) := by
    by_cases hres : n.results.values = []
    · have hraws : n.results.raws = [] := by rw [Tuple.raws, hres]; rfl
      rw [hraws, ← Node.entered_eq hres]
      exact ⟨rfl, rfl⟩
    · have hstays : Assembler.Stays (cs ++ n.entered seq depth :: inner)
          (⟨cs.length, importLabel index⟩ :: stack) :=
        ⟨_, getElem?_middle cs _ inner, .inr (by rw [hentered]; rfl)⟩
      rw [runOf_eq hres]
      refine (Assembler.runClosed_ret _ (hstays.closeDangling _) (getElem?_middle cs _ inner)
        rfl).trans ?_
      rw [modify_middle, ← Node.crossing_eq hres, hentered]
      exact congrArg (fun st => Except.ok (_, st)) (if_neg fun hnot => hnot.2 rfl)
  obtain ⟨edge, site, args, results, enter, leave⟩ := n
  obtain rfl : edge = .import index := hedge
  exact (h.values results (fun _ => importLabel_ne_nil index) site .ret).marker_leave hclose leave
    (getElem?_middle cs _ inner) hcrossing.1 hcrossing.2.1 hcrossing.2.2

end Builder

/-! ### Forests -/

theorem Node.stays_entered (n : Node .m39) (cs : List Crossing) (seq depth : Nat) (label : Text)
    (stack : List OpenCrossing) :
    Assembler.Stays (cs ++ [n.entered seq depth]) (⟨cs.length, label⟩ :: stack) := by
  refine ⟨_, getElem?_middle cs _ [], ?_⟩
  cases hedge : n.edge with
  | «export» name index => exact .inl (by rw [Node.entered_export hedge])
  | «import» index => exact .inr (by rw [Node.entered_import hedge]; rfl)

theorem Builder.Reads.enter {b : Builder} {cs : List Crossing} {stack : List OpenCrossing}
    {n : Node .m39} (h : b.Reads cs stack none) (hstays : Assembler.Stays cs stack)
    (hlegible : n.Legible) :
    (b.enter n).Reads (cs ++ [n.entered cs.length stack.length]) (⟨cs.length, n.edge.label⟩ :: stack)
      none := by
  cases hedge : n.edge with
  | «export» name index =>
    exact h.enter_export hedge fun hargs => hlegible.label hedge (.inl hargs)
  | «import» index => exact h.enter_import hedge hstays

theorem Builder.Reads.leave {b : Builder} {cs inner : List Crossing} {stack : List OpenCrossing}
    {n : Node .m39} {seq depth : Nat}
    (h : b.Reads (cs ++ n.entered seq depth :: inner) (⟨cs.length, n.edge.label⟩ :: stack) none)
    (hlegible : n.Legible) :
    (b.leave n).Reads (cs ++ n.crossing seq depth :: inner) stack none := by
  cases hedge : n.edge with
  | «export» name index =>
    rw [hedge] at h
    have hstays : Assembler.Stays (cs ++ [n.entered seq depth] ++ inner)
        (⟨cs.length, name⟩ :: stack) := (n.stays_entered cs seq depth name stack).append
    rw [List.append_assoc] at hstays
    exact h.leave_export hedge (fun hres => hlegible.label hedge (.inr hres)) fun keep _ =>
      hstays.closeDangling keep
  | «import» index =>
    rw [hedge] at h
    exact h.leave_import hedge

/-- **The reader follows the renderer.** After the records of a forest the reader has its
crossings, in pre-order, behind those it had before, and its stack is as it was. -/
theorem Forest.reads_render {f : Forest .m39} (hlegible : f.All Node.Legible) {b : Builder}
    {cs : List Crossing} {stack : List OpenCrossing} (h : b.Reads cs stack none)
    (hstays : Assembler.Stays cs stack) :
    (f.render b).Reads (cs ++ f.crossings cs.length stack.length) stack none := by
  -- induction on the forest: first what is inside its first root, then the other trees
  induction f generalizing b cs stack with
  | nil =>
    rw [crossings, List.append_nil]
    exact h
  | cons root inside rest ih₁ ih₂ =>
    obtain ⟨hroot, hinside, hrest⟩ := hlegible
    have hin := ih₁ hinside (h.enter hstays hroot) (root.stays_entered cs _ _ _ stack)
    simp only [List.append_assoc, List.singleton_append, List.length_append, List.length_cons,
      List.length_nil, Nat.zero_add] at hin
    have hout := ih₂ hrest (hin.leave hroot) hstays.append
    simp only [List.append_assoc, List.cons_append, List.length_append, List.length_cons] at hout
    simpa only [render, crossings, List.cons_append, Nat.add_assoc, Nat.add_comm 1] using hout

theorem Builder.Reads.reconstruct {b : Builder} {cs : List Crossing} (h : b.Reads cs [] none) :
    ∃ marked state, reconstructCrossings b.events = .ok (cs, marked, state) := by
  obtain ⟨a, hfeed, ha⟩ := h
  obtain ⟨a₁, hrun, ha₁⟩ := ha.closeRun ⟨rfl, rfl⟩
  have ha₂ : (a₁.closeDanglingImports [] true).Holds b.funcs b.varNames cs [] none :=
    ⟨ha₁.functions, ha₁.varNames, ha₁.crossings,
      by rw [Assembler.closeDanglingImports, ha₁.stack]; rfl, ha₁.pending⟩
  have hfinish : a.finish = .ok (a₁.closeDanglingImports [] true).noteGroupBoundary := by
    refine bind_eq_ok.mpr ⟨a₁, hrun, ?_⟩
    dsimp only
    rw [if_neg (not_not_intro ha₂.stack)]
    rfl
  have hcs := ha₂.note.crossings
  generalize (a₁.closeDanglingImports [] true).noteGroupBoundary = a' at hfinish hcs
  refine ⟨a'.sawImportMarker, a'.hostState, ?_⟩
  exact bind_eq_ok.mpr ⟨a, hfeed, bind_eq_ok.mpr ⟨a', hfinish, by rw [hcs]; rfl⟩⟩

theorem Builder.reads_empty : ({} : Builder).Reads [] [] none :=
  ⟨{}, rfl, rfl, rfl, rfl, rfl, rfl⟩

/-- An export's name is not empty and does not read as an import's label. -/
def Node.Named (n : Node v) : Prop :=
  ∀ name index, n.edge = .export name index → name ≠ [] ∧ parseImportLabel name = none

theorem Node.Named.legible {n : Node v} (h : n.Named) : n.Legible := by
  rw [Legible]
  split
  · next name index hedge => exact .inl (h name index hedge)
  · trivial

/-- **Reconstruction inverts the rendering.** For every forest of crossings in which every
export has a name that does not read as an import's label, the trace the producer renders is
accepted and yields the crossings of the forest in pre-order, each with its position, its
nesting depth, its edge and its tuples. -/
theorem reconstructCrossings_events (f : Forest .m39) (hnamed : f.All Node.Named) :
    ∃ marked state, reconstructCrossings f.events = .ok (f.crossings 0 0, marked, state) := by
  have hread := Forest.reads_render (hnamed.mono fun _ => Node.Named.legible) Builder.reads_empty
    (show Assembler.Stays [] [] from trivial)
  exact hread.reconstruct

/-- The metadata of a realm marker, with nothing but what is read of it. -/
def markerMetadata (kind : CrossingKind) (index : UInt32) (enter : Bool) : Text :=
  "\x7b\"boundary_id\":\"js-wasm-realm\",\"direction\":\"".toList ++ directionText enter ++
    "\",\"show_value\":\"".toList ++ showValue kind index ++ "\"\x7d".toList

/-- The payload of a realm marker. -/
def markerPayload (kind : CrossingKind) (index : UInt32) (enter : Bool) : Json.Value :=
  .ofFields [("kind".toList, .ofInt eventKindTraceLogEvent),
    ("metadata".toList, .string (Json.escapeAscii (markerMetadata kind index enter)))]

/-- A payload that decodes as it should. -/
def MarkerEvent.check (kind : CrossingKind) (index : UInt32) (enter : Bool)
    (h : EventRecord.into {} (markerPayload kind index enter) =
      .ok ⟨eventKindTraceLogEvent, markerMetadata kind index enter, []⟩ ∧
      Json.unmarshal MarkerMetadata.into {} (Json.encode (markerMetadata kind index enter)) =
        .ok ⟨jsWasmRealmBoundary, directionText enter, showValue kind index⟩) :
    MarkerEvent kind index enter where
  raw := markerPayload kind index enter
  record := ⟨eventKindTraceLogEvent, markerMetadata kind index enter, []⟩
  decodes := h.1
  isLogEvent := rfl
  spells := h.2

/-- The number seven. -/
def sevenOnDisk : DiskValue where
  json := .ofFields [("kind".toList, .ofText "Int".toList), ("i".toList, .ofText "7".toList)]
  decoded := { kind := "Int".toList, i := "7".toList }
  decodes := by decide +kernel

/-- A call of `f` that asks its import for a number and returns it. -/
def askedOnce : Forest .m39 :=
  .cons
    { edge := .export "f".toList 1, site := ⟨0, 1⟩, args := {}, results := ⟨[sevenOnDisk], by decide⟩
      enter := .check _ _ _ (by decide +kernel), leave := .check _ _ _ (by decide +kernel) }
    (.cons
      { edge := .import 0, site := ⟨0, 1⟩, args := {}, results := ⟨[sevenOnDisk], by decide⟩
        enter := .check _ _ _ (by decide +kernel), leave := .check _ _ _ (by decide +kernel) }
      .nil .nil)
    .nil

def noTuple : Tuple := {}

def sevenTuple : Tuple := ⟨[sevenOnDisk], by decide⟩

theorem reconstructCrossings_events_askedOnce :
    askedOnce.All Node.Named ∧
      ∃ marked state, reconstructCrossings askedOnce.events = .ok (
        [{ seq := 0, depth := 0, kind := .export, name := "f".toList,
           results := [⟨"Int".toList, "7".toList⟩], hasResults := true },
         { seq := 1, depth := 1, kind := .import, index := 0,
           results := [⟨"Int".toList, "7".toList⟩], hasResults := true, markerBracketed := true }],
        marked, state) := by
  have hnamed : askedOnce.All Node.Named := by
    refine ⟨fun name index h => ?_, ⟨fun name index h => ?_, trivial, trivial⟩, trivial⟩
    · cases h
      decide
    · cases h
  exact ⟨hnamed, reconstructCrossings_events askedOnce hnamed⟩

end Boundarylog
