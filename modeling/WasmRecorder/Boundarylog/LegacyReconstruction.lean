import WasmRecorder.Boundarylog.Reconstruction

/-!
# Recordings older than M39

A runtime older than M39 spells the markers of an import like those of an export. Such an
edge is delimited by its value runs alone: its argument run opens the crossing, its result run
ends it, and a call without results stays open until some other record shows that it is over.

* `Builder.Reads.importCall` — one import call; `Forest.reads_importCalls` — the imports of an
  exported call.
* `reconstructCrossings_legacy` — exported calls that make nothing but import calls are
  recovered, if every import has a fixed arity and leaves at least one value.
-/

namespace Boundarylog

/-- How many values each import takes and returns. -/
abbrev Arity := UInt32 → Nat × Nat

/-- An import call keeps to its import's arity, which is not that of a call without values. -/
def Node.Keeps (arity : Arity) {v : Vintage} (n : Node v) : Prop :=
  ∀ index, n.edge = .import index →
    n.args.values.length = (arity index).1 ∧ n.results.values.length = (arity index).2 ∧
      0 < (arity index).1 + (arity index).2

variable {arity : Arity} {b : Builder} {cs : List Crossing} {stack base : List OpenCrossing}

/-- The stack is back at `base`, up to one import that is open for want of results. -/
def Rests (arity : Arity) (cs : List Crossing) (stack base : List OpenCrossing) : Prop :=
  stack = base ∨ ∃ o c index, stack = o :: base ∧ cs[o.idx]? = some c ∧ c.kind = .import ∧
    c.markerBracketed = false ∧ o.label = importLabel index ∧ (arity index).2 = 0

theorem Rests.closeDangling (h : Rests arity cs stack base) (hbase : Assembler.Stays cs base)
    {keep : Text} (hkeep : ∀ index, keep = importLabel index → 0 < (arity index).2) :
    Assembler.closeDangling cs keep false stack = base := by
  rcases h with rfl | ⟨o, c, index, rfl, hc, hkind, hmark, hlabel, hnone⟩
  · exact hbase.closeDangling keep
  · have hne : o.label ≠ keep := by
      intro heq
      have := hkeep index (heq.symm.trans hlabel)
      omega
    rw [Assembler.closeDangling, hc]
    dsimp only
    rw [if_neg (not_not_intro hkind), if_neg hne, hmark, if_neg fun h => Bool.false_ne_true h.1]
    exact hbase.closeDangling keep

/-- The frame of an exported call, under a name that is no import's label. -/
structure Framed (cs : List Crossing) (o : OpenCrossing) : Prop where
  isExport : ∃ c, cs[o.idx]? = some c ∧ c.kind = .export
  named : parseImportLabel o.label = none

theorem Framed.append {o : OpenCrossing} (h : Framed cs o) (more : List Crossing) :
    Framed (cs ++ more) o := by
  obtain ⟨c, hc, hkind⟩ := h.isExport
  refine ⟨⟨c, ?_, hkind⟩, h.named⟩
  rw [List.getElem?_append_left (List.getElem?_eq_some_iff.mp hc).1, hc]

theorem Framed.stays {o : OpenCrossing} (h : Framed cs o) (rest : List OpenCrossing) :
    Assembler.Stays cs (o :: rest) := by
  obtain ⟨c, hc, hkind⟩ := h.isExport
  exact ⟨c, hc, .inl hkind⟩

theorem Framed.label_ne {o : OpenCrossing} (h : Framed cs o) (index : UInt32) :
    o.label ≠ importLabel index := by
  intro heq
  have hparse := h.named
  rw [heq, parseImportLabel_importLabel] at hparse
  cases hparse

namespace Builder

variable {o : OpenCrossing} {rest : List OpenCrossing} {n : Node .legacy} {index : UInt32}

theorem Reads.enter_legacy (h : b.Reads cs stack none) (hrests : Rests arity cs stack (o :: rest))
    (hframe : Framed cs o) (hedge : n.edge = .import index) :
    (n.args.values = [] → (b.enter n).Reads cs stack none) ∧
    (n.args.values ≠ [] →
      (b.enter n).Reads (cs ++ [n.entered cs.length (o :: rest).length])
        (⟨cs.length, importLabel index⟩ :: o :: rest) none) := by
  rw [Node.entered_import hedge]
  obtain ⟨edge, site, args, results, enter, leave⟩ := n
  obtain rfl : edge = .import index := hedge
  have hvalues := h.values args (fun _ => importLabel_ne_nil index) site .arg
  constructor
  · intro hargs
    have hraws : args.raws = [] := by rw [Tuple.raws, show args.values = [] from hargs]; rfl
    rw [hraws] at hvalues
    exact hvalues.marker_export rfl ⟨rfl, rfl⟩ enter
  · intro hargs
    rw [runOf_eq hargs] at hvalues
    have hdang : Assembler.closeDangling cs [] false stack = o :: rest :=
      hrests.closeDangling (hframe.stays rest) fun index heq =>
        absurd heq.symm (importLabel_ne_nil index)
    exact hvalues.marker_export rfl
      (Assembler.runClosed_arg_import _ hdang (parseImportLabel_importLabel index)) enter

/-- **One import call.** Its crossing is added behind the others, and the stack is back at the
frame, up to an import without results. -/
theorem Reads.importCall (h : b.Reads cs stack none) (hrests : Rests arity cs stack (o :: rest))
    (hframe : Framed cs o) (hedge : n.edge = .import index) (hkeeps : n.Keeps arity) :
    ∃ stack', ((b.enter n).leave n).Reads (cs ++ [n.crossing cs.length (o :: rest).length]) stack'
        none ∧
      Rests arity (cs ++ [n.crossing cs.length (o :: rest).length]) stack' (o :: rest) := by
  obtain ⟨hnargs, hnres, hpos⟩ := hkeeps index hedge
  obtain ⟨henter₀, henter₁⟩ := h.enter_legacy hrests hframe hedge
  have hleave : ∀ {cs₁ cs₂ : List Crossing} {stack₁ stack₂ : List OpenCrossing},
      (b.enter n).Reads cs₁ stack₁ none →
      Closes cs₁ stack₁ (runOf (importLabel index) .ret n.results.raws) cs₂ stack₂ →
      ((b.enter n).leave n).Reads cs₂ stack₂ none := by
    intro cs₁ cs₂ stack₁ stack₂ hread hclose
    obtain ⟨edge, site, args, results, enter, leave⟩ := n
    obtain rfl : edge = .import index := hedge
    exact (hread.values results (fun _ => importLabel_ne_nil index) site .ret).marker_export rfl
      hclose leave
  have hentered := Node.entered_import hedge cs.length (o :: rest).length
  by_cases hargs : n.args.values = []
  · -- without arguments: the results are all there is
    have hres : n.results.values ≠ [] := by
      intro hres
      rw [hargs] at hnargs
      rw [hres] at hnres
      simp only [List.length_nil] at hnargs hnres
      omega
    have hdang : Assembler.closeDangling cs (importLabel index) false stack = o :: rest := by
      refine hrests.closeDangling (hframe.stays rest) fun j heq => ?_
      rw [← importLabel_injective heq, ← hnres]
      exact List.length_pos_iff.mpr hres
    obtain ⟨c, hc, -⟩ := hframe.isExport
    refine ⟨o :: rest, hleave (henter₀ hargs) ?_, .inl rfl⟩
    have hraws : n.args.raws = [] := by rw [Tuple.raws, hargs]; rfl
    rw [runOf_eq hres, Node.crossing_eq hres, hentered, hraws]
    exact Assembler.runClosed_ret_lone _ hdang hc (hframe.label_ne index)
      (parseImportLabel_importLabel index)
  · have hopened := henter₁ hargs
    by_cases hres : n.results.values = []
    · -- without results: it stays open
      refine ⟨⟨cs.length, importLabel index⟩ :: o :: rest, hleave hopened ?_, .inr
        ⟨_, _, index, rfl, getElem?_middle cs _ [], ?_, ?_, rfl, ?_⟩⟩
      · have hraws : n.results.raws = [] := by rw [Tuple.raws, hres]; rfl
        rw [hraws, Node.entered_eq hres]
        exact ⟨rfl, rfl⟩
      · rw [← Node.entered_eq hres, hentered]
      · rw [← Node.entered_eq hres, hentered]
        rfl
      · rw [← hnres, hres]
        rfl
    · -- its results end it
      refine ⟨o :: rest, hleave hopened ?_, .inl rfl⟩
      have hdang : Assembler.closeDangling (cs ++ [n.entered cs.length (o :: rest).length])
          (importLabel index) false (⟨cs.length, importLabel index⟩ :: o :: rest) =
          ⟨cs.length, importLabel index⟩ :: o :: rest := by
        rw [Assembler.closeDangling, getElem?_middle]
        dsimp only
        split_ifs <;> first | rfl | contradiction
      rw [runOf_eq hres]
      refine (Assembler.runClosed_ret _ hdang (getElem?_middle cs _ []) rfl).trans ?_
      rw [modify_middle, ← Node.crossing_eq hres, parseImportLabel_importLabel, hentered]
      exact congrArg (fun st => Except.ok (_, st)) (if_pos ⟨rfl, Bool.false_ne_true⟩)

end Builder

theorem Forest.reads_importCalls {f : Forest .legacy} (himports : f.ImportCalls)
    (hkeeps : f.All (Node.Keeps arity)) {o : OpenCrossing} {rest : List OpenCrossing}
    (h : b.Reads cs stack none) (hrests : Rests arity cs stack (o :: rest)) (hframe : Framed cs o) :
    ∃ stack', (f.render b).Reads (cs ++ f.crossings cs.length (o :: rest).length) stack' none ∧
      Rests arity (cs ++ f.crossings cs.length (o :: rest).length) stack' (o :: rest) := by
  induction f generalizing b cs stack with
  | nil =>
    rw [crossings, List.append_nil]
    exact ⟨stack, h, hrests⟩
  | cons root inside more _ ih =>
    obtain ⟨hkind, rfl, hmore⟩ := himports
    obtain ⟨hroot, -, hkeeps⟩ := hkeeps
    obtain ⟨index, hedge⟩ : ∃ index, root.edge = .import index := by
      cases hedge : root.edge with
      | «export» name index =>
        rw [hedge] at hkind
        cases hkind
      | «import» index => exact ⟨index, rfl⟩
    obtain ⟨stack₁, hread, hrests₁⟩ := h.importCall hrests hframe hedge hroot
    have hnext := ih hmore hkeeps hread hrests₁ (hframe.append _)
    simpa only [render, crossings, List.append_assoc, List.singleton_append, List.cons_append,
      List.nil_append, List.length_append, List.length_cons, List.length_nil, Nat.zero_add,
      Nat.add_zero] using hnext

/-- **The reader follows the older renderer.** -/
theorem Forest.reads_flatCalls {f : Forest .legacy} (hflat : f.FlatCalls)
    (hnamed : f.All Node.Named) (hkeeps : f.All (Node.Keeps arity)) (h : b.Reads cs [] none) :
    (f.render b).Reads (cs ++ f.crossings cs.length 0) [] none := by
  induction f generalizing b cs with
  | nil =>
    rw [crossings, List.append_nil]
    exact h
  | cons root inside rest _ ih =>
    obtain ⟨hkind, himports, hrest⟩ := hflat
    obtain ⟨hroot, -, hnamed⟩ := hnamed
    obtain ⟨-, hinside, hkeeps⟩ := hkeeps
    obtain ⟨name, index, hedge⟩ : ∃ name index, root.edge = .export name index := by
      cases hedge : root.edge with
      | «export» name index => exact ⟨name, index, rfl⟩
      | «import» index =>
        rw [hedge] at hkind
        cases hkind
    have hname := hroot name index hedge
    have hframe : Framed (cs ++ [root.entered cs.length 0]) ⟨cs.length, name⟩ :=
      ⟨⟨_, getElem?_middle cs _ [], by rw [Node.entered_export hedge]⟩, hname.2⟩
    obtain ⟨stack', hread, hrests⟩ := inside.reads_importCalls himports hinside
      (h.enter_export hedge fun _ => hname) (.inl rfl) hframe
    have hstays := (hframe.append (inside.crossings (cs.length + 1) 1)).stays []
    simp only [List.append_assoc, List.singleton_append, List.length_append, List.length_cons,
      List.length_nil, Nat.zero_add] at hread hrests hstays
    have hleft := hread.leave_export hedge (fun _ => hname) fun keep hkeep => by
      refine hrests.closeDangling hstays fun j heq => ?_
      -- neither the empty label nor the name is an import's
      rcases hkeep with rfl | rfl
      · exact absurd heq.symm (importLabel_ne_nil j)
      · exact absurd heq (hframe.label_ne j)
    have hnext := ih hrest hnamed hkeeps hleft
    simp only [List.append_assoc, List.cons_append, List.length_append, List.length_cons] at hnext
    simpa only [render, crossings, List.cons_append, Nat.zero_add, Nat.add_assoc,
      Nat.add_comm 1] using hnext

theorem Forest.crossings_unmarked {f : Forest .legacy} {seq depth : Nat} :
    ∀ c ∈ f.crossings seq depth, c.markerBracketed = false := by
  induction f generalizing seq depth with
  | nil => intro c hc; cases hc
  | cons root inside rest ih₁ ih₂ =>
    intro c hc
    rw [crossings, List.cons_append, List.mem_cons, List.mem_append] at hc
    rcases hc with rfl | hc | hc
    · rfl
    · exact ih₁ c hc
    · exact ih₂ c hc

/-- **Recordings older than M39 are recovered.** Take exported calls, under names that are no
label of an import, that make nothing but import calls, and let every import have a fixed arity
with at least one argument or result. The trace an older runtime renders is accepted, its
markers are not taken to name imports, and it yields the crossings in pre-order. -/
theorem reconstructCrossings_legacy (arity : Arity) (f : Forest .legacy) (hflat : f.FlatCalls)
    (hnamed : f.All Node.Named) (hkeeps : f.All (Node.Keeps arity)) :
    ∃ state, reconstructCrossings f.events = .ok (f.crossings 0 0, false, state) := by
  obtain ⟨marked, state, hrec⟩ :=
    (Forest.reads_flatCalls hflat hnamed hkeeps Builder.reads_empty).reconstruct
  have hmarked : marked = false := by
    rw [reconstructCrossings_marked hrec, List.any_eq_false]
    intro c hc
    rw [Forest.crossings_unmarked c hc]
    exact Bool.false_ne_true
  exact ⟨state, hmarked ▸ hrec⟩

/-- A call of `f` that tells its import a number twice. -/
def toldTwice : Forest .legacy :=
  let told : Node .legacy :=
    { edge := .import 0, site := ⟨0, 1⟩, args := sevenTuple, results := noTuple
      enter := .check _ _ _ (by decide +kernel), leave := .check _ _ _ (by decide +kernel) }
  .cons
    { edge := .export "f".toList 1, site := ⟨0, 1⟩, args := noTuple, results := noTuple
      enter := .check _ _ _ (by decide +kernel), leave := .check _ _ _ (by decide +kernel) }
    (.cons told .nil (.cons told .nil .nil)) .nil

theorem reconstructCrossings_legacy_toldTwice :
    toldTwice.FlatCalls ∧ ∃ state, reconstructCrossings toldTwice.events = .ok (
      [{ seq := 0, depth := 0, kind := .export, name := "f".toList },
       { seq := 1, depth := 1, kind := .import, index := 0, args := [⟨"Int".toList, "7".toList⟩] },
       { seq := 2, depth := 1, kind := .import, index := 0, args := [⟨"Int".toList, "7".toList⟩] }],
      false, state) := by
  have hflat : toldTwice.FlatCalls := ⟨rfl, ⟨rfl, rfl, rfl, rfl, trivial⟩, trivial⟩
  refine ⟨hflat, reconstructCrossings_legacy (fun _ => (1, 0)) toldTwice hflat ?_ ?_⟩
  · refine ⟨fun name index h => ?_, ⟨fun name index h => ?_, trivial, fun name index h => ?_,
      trivial, trivial⟩, trivial⟩
    · cases h
      decide
    · cases h
    · cases h
  · refine ⟨fun index h => ?_, ⟨fun index h => ⟨rfl, rfl, Nat.one_pos⟩, trivial,
      fun index h => ⟨rfl, rfl, Nat.one_pos⟩, trivial, trivial⟩, trivial⟩
    cases h

end Boundarylog
