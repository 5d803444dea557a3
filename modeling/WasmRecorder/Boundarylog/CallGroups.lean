import WasmRecorder.Boundarylog.AssemblerInvariant
import WasmRecorder.Lib.Slice

/-!
# Call groups

The completed call groups of an assembler as one list.

* `Inv.flatten_groupList`, `finish_flatten` — the groups are the crossings, cut up.
* `Inv.groupList_prefix` — a group that is complete stays as it is.
-/

namespace Boundarylog

open Fallible Slice

namespace Assembler

/-! ### The list of groups -/

/-- Cut a list at increasing positions, from `start` on. -/
def segments (cs : List Crossing) : Nat → List Nat → List (List Crossing)
  | _, [] => []
  | start, e :: es => slice cs start e :: segments cs e es

/-- The completed groups, in order. -/
def groupList (a : Assembler) : List (List Crossing) := segments a.crossings 0 a.groupEnds

theorem length_segments (cs : List Crossing) (start : Nat) (ends : List Nat) :
    (segments cs start ends).length = ends.length := by
  induction ends generalizing start with
  | nil => rfl
  | cons e es ih => simp [segments, ih]

theorem segments_getElem? (cs : List Crossing) (start : Nat) (ends : List Nat) (i : Nat) :
    (segments cs start ends)[i]? = (ends[i]?).map fun e =>
      slice cs (if i = 0 then start else ends.getD (i - 1) 0) e := by
  induction ends generalizing start i with
  | nil => simp [segments]
  | cons e es ih =>
    cases i with
    | zero => simp [segments]
    | succ i =>
      rw [segments, List.getElem?_cons_succ, ih, List.getElem?_cons_succ]
      cases i with
      | zero => simp
      | succ i => simp

theorem length_groupList (a : Assembler) : a.groupList.length = a.groups :=
  length_segments _ _ _

variable {a : Assembler}

theorem groupList_getElem? {i : Nat} (hi : i < a.groups) : a.groupList[i]? = some (a.group i) := by
  have hget : a.groupEnds[i]? = some (a.groupEnds.getD i 0) := by
    rw [List.getD_eq_getElem?_getD, List.getElem?_eq_getElem hi]
    rfl
  rw [groupList, segments_getElem?, hget]
  rfl

theorem flatten_segments {cs : List Crossing} {start : Nat} {ends : List Nat}
    (hinc : (start :: ends).Pairwise (· < ·)) :
    (segments cs start ends).flatten = slice cs start (ends.getLast?.getD start) := by
  induction ends generalizing start with
  | nil => exact (slice_self cs start).symm
  | cons e es ih =>
    have htail := (List.pairwise_cons.mp hinc).2
    have hse : start < e := (List.pairwise_cons.mp hinc).1 e List.mem_cons_self
    have hlast : e ≤ es.getLast?.getD e := by
      cases hes : es.getLast? with
      | none => exact le_refl _
      | some l => exact ((List.pairwise_cons.mp htail).1 l (List.mem_of_getLast? hes)).le
    rw [segments, List.flatten_cons, ih htail, List.getLast?_cons, Option.getD_some]
    exact slice_append hse.le hlast

theorem Inv.flatten_groupList (h : Inv a) :
    a.groupList.flatten = a.crossings.take a.groupStart := by
  rw [groupList, flatten_segments h.ends_increasing, h.ends_last, slice_zero]

theorem segments_ne_nil {cs : List Crossing} {start : Nat} {ends : List Nat}
    (hinc : (start :: ends).Pairwise (· < ·)) (hle : ∀ e ∈ ends, e ≤ cs.length) :
    ∀ g ∈ segments cs start ends, g ≠ [] := by
  induction ends generalizing start with
  | nil => intro g hg; cases hg
  | cons e es ih =>
    intro g hg
    rcases List.mem_cons.mp hg with rfl | hg
    · have hse : start < e := (List.pairwise_cons.mp hinc).1 e List.mem_cons_self
      have hlen := hle e List.mem_cons_self
      intro hnil
      have := congrArg List.length hnil
      rw [length_slice hlen, List.length_nil] at this
      omega
    · exact ih (List.pairwise_cons.mp hinc).2 (fun e' he' => hle e' (List.mem_cons_of_mem _ he')) g
        hg

theorem Inv.groupList_ne_nil (h : Inv a) : ∀ g ∈ a.groupList, g ≠ [] :=
  segments_ne_nil h.ends_increasing fun e he => (h.ends_le e he).trans h.groupStart_le

theorem segments_congr {cs cs' : List Crossing} {n start : Nat} {ends : List Nat}
    (hcs : cs'.take n = cs.take n) (hle : ∀ e ∈ ends, e ≤ n) :
    segments cs' start ends = segments cs start ends := by
  induction ends generalizing start with
  | nil => rfl
  | cons e es ih =>
    rw [segments, segments, slice_congr hcs (hle e List.mem_cons_self),
      ih fun e' he' => hle e' (List.mem_cons_of_mem _ he')]

theorem segments_append (cs : List Crossing) (start : Nat) (ends ends' : List Nat) :
    ∃ more, segments cs start (ends ++ ends') = segments cs start ends ++ more := by
  induction ends generalizing start with
  | nil => exact ⟨_, rfl⟩
  | cons e es ih =>
    obtain ⟨more, hmore⟩ := ih e
    exact ⟨more, by rw [List.cons_append, segments, hmore]; rfl⟩

theorem Inv.groupList_prefix {a' : Assembler} (h : Inv a) (hext : Extends a a') :
    a.groupList <+: a'.groupList := by
  obtain ⟨ends', hends⟩ := hext.ends
  obtain ⟨more, hmore⟩ := segments_append a'.crossings 0 a.groupEnds ends'
  rw [groupList, groupList, ← hends, hmore, segments_congr hext.frozen h.ends_le]
  exact List.prefix_append _ _

theorem Inv.groups_le {a' : Assembler} (h : Inv a) (hext : Extends a a') :
    a.groups ≤ a'.groups := by
  rw [← length_groupList, ← length_groupList]
  exact (h.groupList_prefix hext).length_le

/-! ### The end of the input -/

/-- When nothing is open and no run is in flight, noting the boundary leaves no crossing
outside a group. -/
theorem Inv.note_complete (h : Inv a) (hstack : a.stack = []) (hpending : a.pending = none) :
    a.noteGroupBoundary.groupStart = a.noteGroupBoundary.crossings.length := by
  rw [noteGroupBoundary]
  split
  · next hcond =>
    simp only [hstack, hpending, ne_eq, not_true_eq_false, false_or] at hcond
    exact le_antisymm h.groupStart_le hcond
  · rfl

theorem finish_complete {a' : Assembler} (h : Inv a) (hok : a.finish = .ok a') :
    a'.groupStart = a'.crossings.length := by
  obtain ⟨a₁, hrun, hfin⟩ := bind_eq_ok.mp hok
  have hstep := h.closeRun hrun
  have hdang := hstep.inv.closeDanglingImports [] true
  dsimp only at hfin
  split_ifs at hfin with hstack
  · cases hfin
  · cases hfin
    rw [ne_eq, not_not] at hstack
    have hpending : a₁.pending = none := closeRun_pending hrun
    exact hdang.inv.note_complete hstack hpending

theorem finish_flatten {a' : Assembler} (h : Inv a) (hok : a.finish = .ok a') :
    a'.groupList.flatten = a'.crossings := by
  rw [(finish_evolves h hok).inv.flatten_groupList, finish_complete h hok, List.take_length]

end Assembler

end Boundarylog
