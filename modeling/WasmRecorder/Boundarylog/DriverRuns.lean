import WasmRecorder.Boundarylog.Seek
import WasmRecorder.Boundarylog.StreamReplaySteps

/-!
# Runs of the streaming driver

What a session of the streaming driver is after it has been prepared, what one round, from the
refreshed host state to the driven call, does to it, and what a run of rounds does.

* `takeIn`, `seen` — the recordings that calls are driven against.
* `Session.round_ok` — inversion of one round; `Session.Ran` puts rounds together.
* `prepareOnce_session` — the session that comes out of instantiation.
-/

namespace Boundarylog

variable {σ κ : Type}

/-- Two drivers of one module. -/
structure SameModule (d₁ d₂ : Driver σ κ) : Prop where
  guest : d₂.guest = d₁.guest
  plans : d₂.plans = d₁.plans
  planned : planImports d₁.guest.compiled d₁.manifest = .ok d₁.plans
  hook : d₂.hook = d₁.hook

/-! ### Groups and their calls -/

/-- The groups can be taken in one after the other from position `n` on, and these are their
exported calls. -/
inductive Calls : Nat → List (List Crossing) → List Crossing → Prop
  | nil (n : Nat) : Calls n [] []
  | cons {n : Nat} {g : List Crossing} {c : Crossing} {gs : List (List Crossing)}
      {cs : List Crossing} (hg : Drivable n g c) (hgs : Calls (n + g.length) gs cs) :
      Calls n (g :: gs) (c :: cs)

theorem Drivable.exports {n : Nat} {g : List Crossing} {c : Crossing} (h : Drivable n g c) :
    g.filter Crossing.isTopLevelExport = [c] ∧ g.filter Crossing.isNestedExport = [] := by
  obtain ⟨htop, ⟨rest, rfl, himports⟩, -⟩ := h
  have hnone : ∀ p : Crossing → Bool, (∀ c' : Crossing, p c' = true → c'.kind = .export) →
      rest.filter p = [] := by
    intro p hp
    refine List.filter_eq_nil_iff.mpr fun c' hc' hpc => ?_
    have hkind := hp c' hpc
    rw [himports c' hc'] at hkind
    cases hkind
  constructor
  · rw [List.filter_cons_of_pos htop, hnone]
    intro c' hc'
    simp only [Crossing.isTopLevelExport, decide_eq_true_eq] at hc'
    exact hc'.1
  · have hc : ¬ c.isNestedExport = true := by
      simp only [Crossing.isTopLevelExport, Crossing.isNestedExport, decide_eq_true_eq] at htop ⊢
      omega
    rw [List.filter_cons_of_neg hc, hnone]
    intro c' hc'
    simp only [Crossing.isNestedExport, decide_eq_true_eq] at hc'
    exact hc'.1

theorem Calls.exports {n : Nat} {gs : List (List Crossing)} {cs : List Crossing}
    (h : Calls n gs cs) :
    gs.flatten.filter Crossing.isTopLevelExport = cs ∧
      gs.flatten.filter Crossing.isNestedExport = [] := by
  induction h with
  | nil n => exact ⟨rfl, rfl⟩
  | cons hg _ ih =>
    rw [List.flatten_cons, List.filter_append, List.filter_append, ih.1, ih.2, hg.exports.1,
      hg.exports.2]
    exact ⟨rfl, rfl⟩

/-! ### What the streaming driver sees -/

/-- The recording once the reader holds this host state and a group has been taken in. -/
def takeIn (shared : Bool) (r : Recording) (x : Arrival) : Recording :=
  (if shared then { r with hostState := x.2 } else r).extend x.1

/-- The recordings the calls of successive groups are driven against. -/
def seen (shared : Bool) (r : Recording) : List Arrival → List Recording
  | [] => []
  | x :: l => takeIn shared r x :: seen shared (takeIn shared r x) l

theorem takeIn_crossings (shared : Bool) (r : Recording) (x : Arrival) :
    (takeIn shared r x).crossings = r.crossings ++ x.1 := by
  rw [takeIn]
  split <;> rfl

theorem seen_prefix {shared : Bool} {r R : Recording} {l : List Arrival}
    (hR : R ∈ seen shared r l) : R.crossings <+: r.crossings ++ (l.map Prod.fst).flatten := by
  induction l generalizing r with
  | nil => cases hR
  | cons x l ih =>
    rw [List.map_cons, List.flatten_cons, ← List.append_assoc, ← takeIn_crossings shared]
    rcases List.mem_cons.mp hR with rfl | hR
    · exact List.prefix_append _ _
    · exact ih hR

theorem seen_last (shared : Bool) (r : Recording) (l : List Arrival) :
    ((seen shared r l).getLastD r).crossings = r.crossings ++ (l.map Prod.fst).flatten := by
  induction l generalizing r with
  | nil => exact (List.append_nil _).symm
  | cons x l ih =>
    rw [seen, List.getLastD_cons, ih, takeIn_crossings, List.map_cons, List.flatten_cons,
      List.append_assoc]

namespace Session

variable {s s' : Session σ κ} {fuel : Nat}

theorem refresh_recording (streamed : Option HostState) (s : Session σ κ) :
    (s.refresh streamed).recording =
      if s.shared then { s.recording with hostState := streamed } else s.recording := by
  rw [refresh]
  split <;> rfl

theorem refresh_rest (streamed : Option HostState) (s : Session σ κ) :
    (s.refresh streamed).driver = s.driver ∧ (s.refresh streamed).progress = s.progress ∧
      (s.refresh streamed).shared = s.shared ∧ (s.refresh streamed).point = s.point := by
  rw [refresh]
  split <;> exact ⟨rfl, rfl, rfl, rfl⟩

/-- **Inversion of one round**: the group is taken in, and its call is driven against the
recording that results. -/
theorem round_ok {x : Arrival} (h : (s.refresh x.2).driveGroup fuel x.1 = some (.ok s')) :
    ∃ c p, Drivable s.recording.crossings.length x.1 c ∧
      s.driver.checkExportCrossing c = .ok () ∧
      s.driver.driveCall fuel (takeIn s.shared s.recording x) s.point s.progress c =
        some (.ok p) ∧
      s' = { s with
        recording := takeIn s.shared s.recording x, progress := p, point := s.point + 1 } := by
  obtain ⟨r, c, p, happ, hcheck, hdrive, rfl⟩ := driveGroup_ok h
  obtain ⟨rfl, hdriv⟩ := appendGroup_iff.mp happ
  have hlen : (s.refresh x.2).recording.crossings = s.recording.crossings := by
    rw [refresh_recording]
    split <;> rfl
  obtain ⟨hdriver, hprog, hshared, hpoint⟩ := refresh_rest x.2 s
  rw [hlen] at hdriv
  rw [hdriver] at hcheck
  rw [hdriver, hprog, hpoint, refresh_recording] at hdrive
  refine ⟨c, p, hdriv, hcheck, hdrive, ?_⟩
  rw [takeIn, refresh]
  split <;> rfl

end Session

/-! ### Several rounds -/

/-- What a streaming driver has done over a list of arrivals. -/
structure Session.Ran (s s' : Session σ κ) (l : List Arrival) (cs : List Crossing) : Prop where
  calls : Calls s.recording.crossings.length (l.map Prod.fst) cs
  checked : ∀ c ∈ cs, s.driver.checkExportCrossing c = .ok ()
  driver : s'.driver = s.driver
  shared : s'.shared = s.shared
  recording : s'.recording = (seen s.shared s.recording l).getLastD s.recording
  point : s'.point = s.point + l.length

theorem Session.Ran.nil (s : Session σ κ) : s.Ran s [] [] :=
  ⟨.nil _, fun _ hc => absurd hc List.not_mem_nil, rfl, rfl, rfl, rfl⟩

theorem Session.Ran.cons {s s' : Session σ κ} {x : Arrival} {l : List Arrival} {c : Crossing}
    {cs : List Crossing} {p : Progress σ} (hdriv : Drivable s.recording.crossings.length x.1 c)
    (hcheck : s.driver.checkExportCrossing c = .ok ())
    (h : Session.Ran { s with
      recording := takeIn s.shared s.recording x, progress := p, point := s.point + 1 } s' l cs) :
    s.Ran s' (x :: l) (c :: cs) where
  calls := by
    have := h.calls
    dsimp only at this
    rw [takeIn_crossings, List.length_append] at this
    exact .cons hdriv this
  checked := by
    intro c' hc'
    rcases List.mem_cons.mp hc' with rfl | hc'
    · exact hcheck
    · exact h.checked c' hc'
  driver := h.driver
  shared := h.shared
  recording := by
    rw [h.recording, seen, List.getLastD_cons]
  point := by
    rw [h.point, List.length_cons]
    dsimp only
    omega

/-! ### From instantiation on -/

/-- The batch driver of the module a session drives. -/
abbrev Session.batch (s : Session σ κ) : Driver σ κ := { s.driver with deferred := false }

/-- A progress that has passed its first point. -/
abbrev Progress.atStart (p : Progress σ) : Progress σ :=
  { p with points := p.points ++ [(0, p.state)] }

section

variable {fuel : Nat} {guest : Guest σ κ} {opts : Options σ} {r F : Recording}
  {streamed : Option HostState}

theorem prepareOnce_session {s : Session σ κ}
    (h : prepareOnce fuel guest opts streamed (.waiting r) = some (.ok s)) :
    s.driver.guest = guest ∧ s.driver.deferred = true ∧ SameModule s.driver s.batch ∧
      s.driver.manifest = opts.manifest ∧ s.driver.hook = opts.atQuiescentPoint ∧ s.point = 0 ∧
      s.recording = { r with hostState := s.recording.hostState } ∧
      reconcileHostState r.hostState streamed = .ok s.recording.hostState ∧
      s.shared = (r.hostState.isNone && streamed.isSome) ∧
      ∃ p₀, s.driver.prepare fuel s.recording = some (.ok p₀) ∧ s.progress = p₀.atStart ∧
        ∀ hook, opts.atQuiescentPoint = some hook → hook 0 p₀.state = .ok () := by
  obtain ⟨state, plans, p₀, p, hstate, hplans, hprep, hpass, rfl⟩ := prepareOnce_ok h
  obtain ⟨rfl, hhook⟩ := Driver.passPoint_ok hpass
  exact ⟨rfl, rfl, ⟨rfl, rfl, hplans, rfl⟩, rfl, rfl, rfl, rfl, hstate, rfl, p₀, hprep, rfl, hhook⟩

end

end Boundarylog
