import WasmRecorder.Boundarylog.StreamReader

/-!
# The host state a stream carries

The assembler puts the host state together record by record. While a stream is read it only
grows: mutations are added at the end, and the first initial state stays.

* `StreamOrder` — what a relation needs to hold between any two host states of one stream,
  given in turn by `StreamOrder.push`, `StreamOrder.readByte` and `StreamOrder.arrivals`.
* `arrivals_growInto` — what the reader has at each group grows into what it has at the end.
-/

namespace Boundarylog

open Fallible Json Json.ArrayLexer

/-- The host-state record an `Event` is, if it is one that can be applied. -/
def hostStateRecordOf (e : Json.Value) : Option HostStateRecord :=
  match parseHostStateMarker e with
  | .ok m => m
  | .error _ => none

/-- The host-state record a trace record carries. -/
def TraceEvent.hostStateRecord (ev : TraceEvent) : Option HostStateRecord :=
  -- an `Event` is looked at only when no field that decides the record's kind before it is set
  match ev with
  | { function := some _, .. } => none
  | { variableName := some _, .. } => none
  | { value := some _, .. } => none
  | { call := some _, .. } => none
  | { event := some e, .. } => hostStateRecordOf e
  | _ => none

/-! ### One record -/

namespace Assembler

variable {a a' : Assembler}

theorem pushValue_hostState {v : ValueRecord} (hok : a.pushValue v = .ok a') :
    a'.hostState = a.hostState := by
  rw [pushValue] at hok
  split at hok
  · cases hok
  · split at hok
    · exact (closeRun_frame hok).hostState
    · next b _ =>
      split at hok
      · cases hok
      · obtain ⟨a₁, hrun, hext⟩ := bind_eq_ok.mp hok
        have hstate₁ : a₁.hostState = a.hostState := by
          rw [closeRunBefore] at hrun
          split_ifs at hrun
          · exact (closeRun_frame hrun).hostState
          · cases hrun
            rfl
        rw [extendRun] at hext
        split_ifs at hext
        cases hext
        exact hstate₁

theorem pushMarker_hostState {m : RealmMarker} (hok : a.pushMarker m = .ok a') :
    a'.hostState = a.hostState := by
  rw [pushMarker] at hok
  split at hok
  · cases hok
    rfl
  · split at hok
    · cases hok
      rw [openMarkedImport]
      split
      · rfl
      · split <;> rfl
    · rw [closeMarkedImport] at hok
      split at hok
      · cases hok
      · split_ifs at hok
        cases hok
        rfl

theorem pushEvent_hostState {e : Json.Value} (hok : a.pushEvent e = .ok a') :
    (parseHostStateMarker e = .ok none ∧ a'.hostState = a.hostState) ∨
      ∃ m s, parseHostStateMarker e = .ok (some m) ∧ foldHostStateMarker a.hostState m = .ok s ∧
        a'.hostState = some s := by
  obtain ⟨a₁, hrun, hev⟩ := bind_eq_ok.mp hok
  have hstate := (closeRun_frame hrun).hostState
  split at hev
  · cases hev
  · next m hm =>
    split at hev
    · cases hev
    · next s hs =>
      cases hev
      rw [hstate] at hs
      exact .inr ⟨m, s, hm, hs, rfl⟩
  · next hm =>
    refine .inl ⟨hm, ?_⟩
    split at hev
    · cases hev
      exact hstate
    · exact (pushMarker_hostState hev).trans hstate

theorem pushRecord_hostState {ev : TraceEvent} (hok : a.pushRecord ev = .ok a') :
    (ev.hostStateRecord = none ∧ a'.hostState = a.hostState) ∨
      ∃ m s, ev.hostStateRecord = some m ∧ foldHostStateMarker a.hostState m = .ok s ∧
        a'.hostState = some s := by
  obtain ⟨path, step, function, call, returned, value, variableName, event⟩ := ev
  cases function with
  | some f =>
    obtain ⟨a₁, hrun, hpure⟩ := bind_eq_ok.mp hok
    cases hpure
    exact .inl ⟨rfl, (closeRun_frame hrun).hostState⟩
  | none =>
  cases variableName with
  | some name =>
    cases hok
    exact .inl ⟨rfl, rfl⟩
  | none =>
  cases value with
  | some v => exact .inl ⟨rfl, pushValue_hostState hok⟩
  | none =>
  cases call with
  | some call =>
    obtain ⟨a₁, hrun, hcall⟩ := bind_eq_ok.mp hok
    split at hcall
    · cases hcall
    · cases hcall
      exact .inl ⟨rfl, (closeRun_frame hrun).hostState⟩
  | none =>
  cases event with
  | some e =>
    rcases pushEvent_hostState hok with ⟨hm, hstate⟩ | ⟨m, s, hm, hs, hstate⟩
    · have hrec : hostStateRecordOf e = none := by rw [hostStateRecordOf, hm]
      exact .inl ⟨hrec, hstate⟩
    · have hrec : hostStateRecordOf e = some m := by rw [hostStateRecordOf, hm]
      exact .inr ⟨m, s, hrec, hs, hstate⟩
  | none =>
  refine .inl ⟨rfl, ?_⟩
  cases returned with
  | some ret =>
    obtain ⟨a₁, hrun, hret⟩ := bind_eq_ok.mp hok
    dsimp only at hret
    split at hret
    · cases hret
    · split_ifs at hret
      cases hret
      exact (closeRun_frame hrun).hostState
  | none =>
    change (if path.isSome ∨ step.isSome then a.closeRun else .ok a) = .ok a' at hok
    split_ifs at hok
    · exact (closeRun_frame hok).hostState
    · cases hok
      rfl

/-- **What one record does to the host state.** -/
theorem push_hostState {ev : TraceEvent} (hok : a.push ev = .ok a') :
    (ev.hostStateRecord = none ∧ a'.hostState = a.hostState) ∨
      ∃ m s, ev.hostStateRecord = some m ∧ foldHostStateMarker a.hostState m = .ok s ∧
        a'.hostState = some s := by
  obtain ⟨a₁, hrec, rfl⟩ := map_eq_ok.mp hok
  rw [note_hostState]
  exact pushRecord_hostState hrec

end Assembler

/-! ### Growth -/

/-- A host state and a later one of the same stream. -/
structure HostState.Grows (s s' : HostState) : Prop where
  version : s'.version = s.version
  mutations : s.mutationList <+: s'.mutationList
  initial : s.initialSeen = true → s'.initialSeen = true ∧ s'.initial = s.initial

/-- The same when there may be none yet. -/
def GrowsInto (h h' : Option HostState) : Prop := ∀ s, h = some s → ∃ s', h' = some s' ∧ s.Grows s'

theorem GrowsInto.refl (h : Option HostState) : GrowsInto h h :=
  fun s hs => ⟨s, hs, rfl, List.prefix_refl _, fun hi => ⟨hi, rfl⟩⟩

theorem GrowsInto.trans {h₁ h₂ h₃ : Option HostState} (h₁₂ : GrowsInto h₁ h₂)
    (h₂₃ : GrowsInto h₂ h₃) : GrowsInto h₁ h₃ := by
  intro s hs
  obtain ⟨s₂, hs₂, hv, hm, hi⟩ := h₁₂ s hs
  obtain ⟨s₃, hs₃, hv', hm', hi'⟩ := h₂₃ s₂ hs₂
  refine ⟨s₃, hs₃, hv'.trans hv, hm.trans hm', fun hseen => ?_⟩
  obtain ⟨hseen₂, hinit₂⟩ := hi hseen
  obtain ⟨hseen₃, hinit₃⟩ := hi' hseen₂
  exact ⟨hseen₃, hinit₃.trans hinit₂⟩

theorem fold_growsInto {h : Option HostState} {m : HostStateRecord} {s : HostState}
    (hfold : foldHostStateMarker h m = .ok s) : GrowsInto h (some s) := by
  rintro s₀ rfl
  refine ⟨s, rfl, ?_⟩
  rw [foldHostStateMarker.eq_def] at hfold
  dsimp only [Option.getD_some] at hfold
  split at hfold
  · split_ifs at hfold with hseen
    · cases hfold
      exact ⟨rfl, List.prefix_refl _, fun hi => ⟨hi, rfl⟩⟩
    · obtain ⟨⟨⟩, -, rfl⟩ := map_eq_ok.mp hfold
      exact ⟨rfl, List.prefix_refl _, fun hi => absurd hi hseen⟩
  · obtain ⟨⟨⟩, -, rfl⟩ := map_eq_ok.mp hfold
    exact ⟨rfl, List.prefix_append _ _, fun hi => ⟨hi, rfl⟩⟩

/-! ### What every record preserves -/

/-- A relation between an earlier and a later host state of one stream. -/
structure StreamOrder (R : Option HostState → Option HostState → Prop) : Prop where
  refl : ∀ h, R h h
  trans : ∀ h₁ h₂ h₃, R h₁ h₂ → R h₂ h₃ → R h₁ h₃
  fold : ∀ h m s, foldHostStateMarker h m = .ok s → R h (some s)

theorem growsInto_streamOrder : StreamOrder GrowsInto :=
  ⟨GrowsInto.refl, fun _ _ _ => GrowsInto.trans, fun _ _ _ => fold_growsInto⟩

section

variable {R : Option HostState → Option HostState → Prop} (hR : StreamOrder R)
include hR

theorem StreamOrder.push {a a' : Assembler} {ev : TraceEvent} (hok : a.push ev = .ok a') :
    R a.hostState a'.hostState := by
  rcases Assembler.push_hostState hok with ⟨-, hstate⟩ | ⟨m, s, -, hs, hstate⟩
  · rw [hstate]
    exact hR.refl _
  · rw [hstate]
    exact hR.fold _ _ _ hs

theorem StreamOrder.readByte {st st' : Position × Assembler} {c : UInt8}
    (h : readByte st c = .ok st') : R st.2.hostState st'.2.hostState := by
  rw [Boundarylog.readByte, consume] at h
  split at h
  · cases h
  · cases h
    exact hR.refl _
  · obtain ⟨a, hpush, rfl⟩ := map_eq_ok.mp h
    obtain ⟨ev, -, hev⟩ := pushRaw_ok hpush
    exact hR.push hev

theorem StreamOrder.readBytes {st st' : Position × Assembler} {b : Bytes}
    (h : Fallible.feed Boundarylog.readByte st b = .ok st') :
    R st.2.hostState st'.2.hostState :=
  feed_rel (fun _ => True) (fun st st' => R st.2.hostState st'.2.hostState)
    (fun st => hR.refl st.2.hostState) (fun _ _ _ => hR.trans _ _ _)
    (fun _ _ _ _ hc => ⟨trivial, hR.readByte hc⟩) trivial h

/-- **The host state of every arrival lies between the first and the last.** -/
theorem StreamOrder.arrivals (core : Core) (n : Nat) (chunks : List Bytes) :
    R core.1.2.hostState (arrivals core n chunks).final ∧
      ∀ x ∈ (arrivals core n chunks).groups,
        R core.1.2.hostState x.2 ∧ R x.2 (Boundarylog.arrivals core n chunks).final := by
  have hhand : ∀ {a : Assembler} {n : Nat} {h : Option HostState}, R a.hostState h →
      ∀ x ∈ a.handOut n, R a.hostState x.2 ∧ R x.2 h := by
    intro a n h hle x hx
    obtain ⟨g, -, rfl⟩ := List.mem_map.mp hx
    exact ⟨hR.refl _, hle⟩
  induction chunks generalizing core n with
  | nil =>
    refine ⟨hR.refl _, fun x hx => ?_⟩
    obtain ⟨g, -, rfl⟩ := List.mem_map.mp hx
    exact ⟨hR.refl _, hR.refl _⟩
  | cons chunk chunks ih =>
    rw [Boundarylog.arrivals]
    cases hread : core.read chunk with
    | error e => exact ⟨hR.refl _, hhand (hR.refl _)⟩
    | ok core' =>
      obtain ⟨b, -, hfeed, -⟩ := lex_ok hread
      have hstep : R core.1.2.hostState core'.1.2.hostState := hR.readBytes hfeed
      obtain ⟨hfinal, hrest⟩ := ih core' core.1.2.groups
      have hle := hR.trans _ _ _ hstep hfinal
      refine ⟨hle, fun x hx => ?_⟩
      rcases List.mem_append.mp hx with hx | hx
      · exact hhand hle x hx
      · obtain ⟨hfrom, hto⟩ := hrest x hx
        exact ⟨hR.trans _ _ _ hstep hfrom, hto⟩

end

theorem arrivals_growInto (core : Core) (n : Nat) (chunks : List Bytes) :
    ∀ x ∈ (arrivals core n chunks).groups, GrowsInto x.2 (arrivals core n chunks).final :=
  fun x hx => ((growsInto_streamOrder.arrivals core n chunks).2 x hx).2

/-- An initial state that is not empty came with an initial record. -/
def Earned (h : Option HostState) : Prop :=
  ∀ s, h = some s → s.initialSeen = false → s.initial = {}

theorem earned_streamOrder : StreamOrder fun h h' => Earned h → Earned h' where
  refl := fun _ => id
  trans := fun _ _ _ h₁₂ h₂₃ => h₂₃ ∘ h₁₂
  fold := by
    rintro h m s hfold hearned s' hs' hseen
    cases hs'
    have hstart : (h.getD { version := hostStateVersion }).initialSeen = false →
        (h.getD { version := hostStateVersion }).initial = {} := by
      cases h with
      | none => exact fun _ => rfl
      | some s₀ => exact hearned s₀ rfl
    rw [foldHostStateMarker.eq_def] at hfold
    dsimp only at hfold
    split at hfold
    · split_ifs at hfold with hs₀
      · cases hfold
        exact hstart hseen
      · obtain ⟨-, -, rfl⟩ := map_eq_ok.mp hfold
        cases hseen
    · obtain ⟨-, -, rfl⟩ := map_eq_ok.mp hfold
      exact hstart hseen

end Boundarylog
