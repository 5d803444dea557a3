import WasmRecorder.Boundarylog.Reconstruction

/-!
# Export names that read as import labels

The value runs of a crossing are labelled by the export's name, or by `import #` and the
import's index: the two share one namespace. An export whose name reads as an import's label
has its argument run taken for an import call, and its result run ends its frame before its
`Return` does.

* `reconstructCrossings_calls_iff` — exported calls are recovered exactly if no call that
  carries values has such a name.
* `reconstructCrossings_importNamed` — a call that is not.
-/

namespace Boundarylog

open Fallible

variable {v : Vintage}

/-! ### Records are only added -/

namespace Builder

theorem prefix_emit (b : Builder) (ev : TraceEvent) : b.events <+: (b.emit ev).events :=
  List.prefix_append _ _

theorem prefix_introduceFunction (b : Builder) (name : Text) (site : Site) :
    b.events <+: (b.introduceFunction name site).events := by
  rw [introduceFunction]
  split_ifs
  · exact List.prefix_refl _
  · exact b.prefix_emit _

theorem prefix_value (b : Builder) (label : Text) (role : Role) (slot : Nat) (v : DiskValue) :
    b.events <+: (b.value label role slot v).events := by
  have hname : b.events <+: (b.introduceName (bindingName label role slot)).events := by
    rw [introduceName]
    split_ifs
    · exact List.prefix_refl _
    · exact b.prefix_emit _
  exact hname.trans (prefix_emit _ _)

theorem prefix_slots (b : Builder) (label : Text) (role : Role) (slot : Nat)
    (vs : List DiskValue) : b.events <+: (slots label role slot vs b).events := by
  induction vs generalizing b slot with
  | nil => exact List.prefix_refl _
  | cons v vs ih => exact (b.prefix_value label role slot v).trans (ih _ _)

theorem prefix_values (b : Builder) (site : Site) (label : Text) (role : Role) (t : Tuple) :
    b.events <+: (b.values site label role t).events := by
  rw [values]
  split_ifs
  · exact List.prefix_refl _
  · exact (b.prefix_emit _).trans (prefix_slots _ label role 0 t.values)

theorem prefix_enter (b : Builder) (n : Node v) : b.events <+: (b.enter n).events := by
  refine List.IsPrefix.trans ?_ ((prefix_values _ n.site n.edge.label .arg n.args).trans
    (prefix_emit _ _))
  split
  · exact ((b.prefix_emit _).trans (prefix_introduceFunction _ _ _)).trans (prefix_emit _ _)
  · exact List.prefix_refl _

theorem prefix_leave (b : Builder) (n : Node v) : b.events <+: (b.leave n).events := by
  refine (b.prefix_values n.site n.edge.label .ret n.results).trans
    (List.IsPrefix.trans ?_ (prefix_emit _ _))
  split
  · exact prefix_emit _ _
  · exact List.prefix_refl _

theorem prefix_render (f : Forest v) (b : Builder) : b.events <+: (f.render b).events := by
  induction f generalizing b with
  | nil => exact List.prefix_refl _
  | cons root inside rest ih₁ ih₂ =>
    exact (((b.prefix_enter root).trans (ih₁ _)).trans (prefix_leave _ root)).trans (ih₂ _)

end Builder

/-! ### Calls under an import's label -/

variable {b : Builder} {cs : List Crossing} {n : Node .m39} {name : Text} {index i : UInt32}

theorem Builder.Reads.enter_mislabelled (h : b.Reads cs [] none)
    (hedge : n.edge = .export name index) (hname : name ≠ [])
    (hparse : parseImportLabel name = some i) (hargs : n.args.values ≠ []) :
    ∃ c, c.kind = .import ∧ ∃ c₀ stack, (b.enter n).Reads (cs ++ [c₀] ++ [c]) stack none := by
  obtain ⟨edge, site, args, results, enter, leave⟩ := n
  obtain rfl : edge = .export name index := hedge
  have hcall := ((h.step site).introduceFunction name site).call (mem_introduceFunction _ name site)
  have hvalues := hcall.values args (fun _ => hname) site .arg
  rw [runOf_eq hargs] at hvalues
  have hstays : Assembler.Stays (cs ++ [{ seq := cs.length, depth := 0, kind := .export, name }])
      [⟨cs.length, name⟩] := ⟨_, getElem?_middle cs _ [], .inl rfl⟩
  exact ⟨_, rfl, _, _, hvalues.marker_export (Edge.markedAs_export .m39 name index)
    (Assembler.runClosed_arg_import _ (hstays.closeDangling []) hparse) enter⟩

/-- The result run of a call under an import's label ends its frame, so that its `Return` finds
none. -/
theorem Builder.Reads.leave_mislabelled (h : b.Reads (cs ++ [n.entered cs.length 0])
    [⟨cs.length, name⟩] none) (hedge : n.edge = .export name index) (hname : name ≠ [])
    (hparse : parseImportLabel name = some i) (hres : n.results.values ≠ []) :
    ∃ e, feed Assembler.push {} (b.leave n).events = .error e := by
  rw [Node.entered_export hedge] at h
  obtain ⟨edge, site, args, results, enter, leave⟩ := n
  obtain rfl : edge = .export name index := hedge
  obtain ⟨a, hfeed, ha⟩ := h.values results (fun _ => hname) site .ret
  rw [runOf_eq hres] at ha
  have hstays : Assembler.Stays
      (cs ++ [{ seq := cs.length, depth := 0, kind := .export, name, args := args.raws }])
      [⟨cs.length, name⟩] := ⟨_, getElem?_middle cs _ [], .inl rfl⟩
  -- the run is read as an import's, and an import without markers ends with its results
  obtain ⟨cs', hclosed⟩ : ∃ cs', Assembler.runClosed
      (cs ++ [{ seq := cs.length, depth := 0, kind := .export, name, args := args.raws }])
      [⟨cs.length, name⟩] ⟨name, .ret, results.raws⟩ = .ok (cs', []) := by
    have hrun := Assembler.runClosed_ret results.raws (hstays.closeDangling name)
      (getElem?_middle cs _ []) rfl
    rw [hparse, if_pos ⟨rfl, Bool.false_ne_true⟩] at hrun
    exact ⟨_, hrun⟩
  obtain ⟨a₁, hrun, ha₁⟩ := ha.closeRun hclosed
  have htop : (a₁.closeDanglingImports [] false).top = none := by
    rw [Assembler.top, Assembler.closeDanglingImports, ha₁.stack]
    rfl
  have hret : a.push { returned := some { returnValue := some (returnValue results) } } =
      .error .returnUnopened := by
    have hpush : a.pushReturn = .error .returnUnopened := by
      rw [Assembler.pushReturn, hrun, ok_bind]
      simp only [htop]
    exact congrArg (Except.map Assembler.noteGroupBoundary) hpush
  refine ⟨.returnUnopened, feed_append_of_error ?_⟩
  change feed Assembler.push {} ((b.values site name .ret results).events ++ [_]) = _
  rw [feed_append_of_ok hfeed, feed_cons_of_error hret]

theorem Forest.Calls.kind_export {f : Forest v} (hcalls : f.Calls) {seq depth : Nat} :
    ∀ c ∈ f.crossings seq depth, c.kind = .export := by
  induction f generalizing seq with
  | nil => intro c hc; cases hc
  | cons root inside rest _ ih =>
    obtain ⟨hkind, rfl, hrest⟩ := hcalls
    intro c hc
    rw [crossings, crossings, List.cons_append, List.nil_append, List.mem_cons] at hc
    rcases hc with rfl | hc
    · exact hkind
    · exact ih hrest c hc

theorem import_persists {b b' : Builder} {cs : List Crossing} {stack : List OpenCrossing}
    {c c₀ : Crossing} (h : b.Reads (cs ++ [c₀] ++ [c]) stack none) (hc : c.kind = .import)
    (hmore : b.events <+: b'.events) {a : Assembler}
    (hfeed : feed Assembler.push {} b'.events = .ok a) :
    ∃ c' ∈ a.crossings, c'.kind = .import := by
  obtain ⟨a₁, hfeed₁, ha₁⟩ := h
  obtain ⟨more, hmore⟩ := hmore
  rw [← hmore, feed_append_of_ok hfeed₁] at hfeed
  have hinv := (Assembler.feed_evolves Assembler.inv_empty hfeed₁).inv
  have hget : a₁.crossings[(cs ++ [c₀]).length]? = some c := by
    rw [ha₁.crossings]
    exact getElem?_middle _ c []
  obtain ⟨c', hc', hkind, -⟩ := (Assembler.feed_evolves hinv hfeed).ext.keeps _ _ hget
  exact ⟨c', List.mem_of_getElem? hc', hkind.trans hc⟩

theorem Forest.misread {f : Forest .m39} (hcalls : f.Calls)
    (hnames : f.All fun n => n.edge.label ≠ []) (hbad : ¬ f.All Node.Legible) {b : Builder}
    {cs : List Crossing} (h : b.Reads cs [] none) {a : Assembler}
    (hfeed : feed Assembler.push {} (f.render b).events = .ok a) :
    ∃ c ∈ a.crossings, c.kind = .import := by
  induction f generalizing b cs with
  | nil => exact absurd trivial hbad
  | cons root inside rest _ ih =>
    obtain ⟨hkind, rfl, hrest⟩ := hcalls
    obtain ⟨hname, -, hnames⟩ := hnames
    by_cases hroot : root.Legible
    · have hlegible : Forest.All Node.Legible (.cons root .nil .nil) := ⟨hroot, trivial, trivial⟩
      exact ih hrest hnames (fun hall => hbad ⟨hroot, trivial, hall⟩)
        (Forest.reads_render hlegible h trivial) hfeed
    · obtain ⟨name, index, hedge⟩ : ∃ name index, root.edge = .export name index := by
        cases hedge : root.edge with
        | «export» name index => exact ⟨name, index, rfl⟩
        | «import» index =>
          rw [hedge] at hkind
          cases hkind
      rw [hedge] at hname
      rw [Node.Legible, hedge] at hroot
      push Not at hroot
      obtain ⟨hparse, hvalues⟩ := hroot
      obtain ⟨i, hparse⟩ := Option.ne_none_iff_exists'.mp (hparse hname)
      by_cases hargs : root.args.values = []
      · -- without arguments, the results end the frame
        exfalso
        have hentered := h.enter_export hedge fun hne => absurd hargs hne
        obtain ⟨e, he⟩ := hentered.leave_mislabelled hedge hname hparse (hvalues hargs)
        obtain ⟨more, hmore⟩ := Builder.prefix_render rest ((b.enter root).leave root)
        rw [render, render, ← hmore, feed_append_of_error he] at hfeed
        cases hfeed
      · obtain ⟨c, hc, c₀, stack, hread⟩ := h.enter_mislabelled hedge hname hparse hargs
        exact import_persists hread hc ((Builder.prefix_leave _ root).trans
          (Builder.prefix_render rest _)) hfeed

theorem Node.legible_iff {n : Node v} (hkind : n.edge.kind = .export) (hname : n.edge.label ≠ []) :
    n.Legible ↔ parseImportLabel n.edge.label = none ∨
      n.args.values = [] ∧ n.results.values = [] := by
  rw [Legible]
  cases hedge : n.edge with
  | «export» name index =>
    rw [hedge] at hname
    exact or_congr_left (and_iff_right hname)
  | «import» index =>
    rw [hedge] at hkind
    cases hkind

theorem Forest.Calls.legible_iff {f : Forest v} (hcalls : f.Calls)
    (hnames : f.All fun n => n.edge.label ≠ []) :
    f.All Node.Legible ↔ f.All fun n => parseImportLabel n.edge.label = none ∨
      n.args.values = [] ∧ n.results.values = [] := by
  induction f with
  | nil => exact Iff.rfl
  | cons root inside rest _ ih =>
    obtain ⟨hkind, rfl, hrest⟩ := hcalls
    exact and_congr (Node.legible_iff hkind hnames.1) (and_congr Iff.rfl (ih hrest hnames.2.2))

/-- **When exported calls are recovered.** A sequence of exported calls, each under a name that
is not empty, is recovered from its rendering, with the names and tuples rendered, exactly if
every call whose name reads as an import's label carries neither arguments nor results. -/
theorem reconstructCrossings_calls_iff (f : Forest .m39) (hcalls : f.Calls)
    (hnames : f.All fun n => n.edge.label ≠ []) :
    (∃ marked state, reconstructCrossings f.events = .ok (f.crossings 0 0, marked, state)) ↔
      f.All fun n => parseImportLabel n.edge.label = none ∨
        n.args.values = [] ∧ n.results.values = [] := by
  rw [← hcalls.legible_iff hnames]
  constructor
  · rintro ⟨marked, state, hrec⟩
    by_contra hbad
    obtain ⟨a, a', ha, ha', hcs, -, -⟩ := reconstructCrossings_ok hrec
    obtain ⟨c, hc, hkind⟩ := f.misread hcalls hnames hbad Builder.reads_empty ha
    -- the import is still there at the end
    have hinv := (Assembler.feed_evolves Assembler.inv_empty ha).inv
    obtain ⟨i, hi⟩ := List.mem_iff_getElem?.mp hc
    obtain ⟨c', hc', hkind', -⟩ := (Assembler.finish_evolves hinv ha').ext.keeps i c hi
    have hexport := hcalls.kind_export c' (hcs ▸ List.mem_of_getElem? hc')
    rw [hkind', hkind] at hexport
    cases hexport
  · intro hlegible
    exact (Forest.reads_render hlegible Builder.reads_empty trivial).reconstruct

def enterExport : MarkerEvent .export 1 true := .check .export 1 true (by decide +kernel)

def leaveExport : MarkerEvent .export 1 false := .check .export 1 false (by decide +kernel)

/-- A call that takes the number seven, under a name of one's choice. -/
def calledWith (name : Text) : Forest .m39 :=
  .cons
    { edge := .export name 1, site := ⟨0, 1⟩, args := sevenTuple, results := noTuple
      enter := enterExport, leave := leaveExport }
    .nil .nil

theorem reconstructCrossings_calls_colon :
    (calledWith "a:arg0".toList).Calls ∧
      ∃ marked state, reconstructCrossings (calledWith "a:arg0".toList).events = .ok (
        [{ seq := 0, depth := 0, kind := .export, name := "a:arg0".toList
           args := [⟨"Int".toList, "7".toList⟩] }], marked, state) := by
  have hcalls : (calledWith "a:arg0".toList).Calls := ⟨rfl, rfl, trivial⟩
  have hnames : (calledWith "a:arg0".toList).All fun n => n.edge.label ≠ [] :=
    ⟨by decide, trivial, trivial⟩
  refine ⟨hcalls, (reconstructCrossings_calls_iff _ hcalls hnames).mpr ?_⟩
  exact ⟨.inl (by decide), trivial, trivial⟩

/-- The argument of a call of `import #0` is taken for an import call. -/
theorem reconstructCrossings_importNamed :
    (calledWith "import #0".toList).Calls ∧
      (reconstructCrossings (calledWith "import #0".toList).events).toOption.map Prod.fst = some
        [{ seq := 0, depth := 0, kind := .export, name := "import #0".toList },
         { seq := 1, depth := 1, kind := .import, index := 0
           args := [⟨"Int".toList, "7".toList⟩] }] ∧
      ¬ ∃ marked state, reconstructCrossings (calledWith "import #0".toList).events =
        .ok ((calledWith "import #0".toList).crossings 0 0, marked, state) := by
  have hrec : (reconstructCrossings (calledWith "import #0".toList).events).toOption.map Prod.fst =
      some [{ seq := 0, depth := 0, kind := .export, name := "import #0".toList },
         { seq := 1, depth := 1, kind := .import, index := 0
           args := [⟨"Int".toList, "7".toList⟩] }] := by
    decide +kernel
  refine ⟨⟨rfl, rfl, trivial⟩, hrec, ?_⟩
  rintro ⟨marked, state, h⟩
  rw [h] at hrec
  have hlength : ((calledWith "import #0".toList).crossings 0 0).length = 2 :=
    congrArg List.length (Option.some.inj hrec)
  exact absurd hlength (by decide)

end Boundarylog
