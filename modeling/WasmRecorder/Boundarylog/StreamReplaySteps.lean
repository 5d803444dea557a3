import WasmRecorder.Boundarylog.StreamReplay

/-!
# What the streaming driver can do

Inversion lemmas for the functions of the streaming driver, as `ReplaySteps` has them for
the batch driver.

* `Session.driveArrivals` — the driver's loop over what arrives at the reader.
* `streamingReplay_iff` — when a streaming replay returns without an error, in terms of what
  arrives.
-/

namespace Boundarylog

open Fallible

variable {σ κ : Type}

/-! ### Call groups -/

/-- The recording after a call group has been taken in. -/
def Recording.extend (r : Recording) (group : List Crossing) : Recording :=
  { r with
    crossings := r.crossings ++ group
    markersIdentifyImports := r.markersIdentifyImports || group.any Crossing.markerBracketed }

/-- A group of one exported call and the imports called during it, numbered on from `n`. -/
structure Drivable (n : Nat) (group : List Crossing) (c : Crossing) : Prop where
  top : c.isTopLevelExport = true
  imports : ∃ rest, group = c :: rest ∧ ∀ c' ∈ rest, c'.kind = .import
  numbered : ∀ (i : Nat) (c' : Crossing), group[i]? = some c' → c'.seq = n + i

theorem Recording.extend_nil (r : Recording) : r.extend [] = r := by
  rw [extend, List.append_nil, List.any_nil, Bool.or_false]

theorem Recording.extend_append (r : Recording) (group group' : List Crossing) :
    (r.extend group).extend group' = r.extend (group ++ group') := by
  rw [extend, extend, extend]
  simp [Bool.or_assoc]

theorem Recording.extend_cons (r : Recording) (c : Crossing) (group : List Crossing) :
    (r.extend [c]).extend group = r.extend (c :: group) :=
  r.extend_append [c] group

theorem appendCrossing_ok {acc acc' : Appending} {c : Crossing}
    (h : appendCrossing acc c = .ok acc') :
    acc'.recording = acc.recording.extend [c] ∧ c.seq = acc.recording.crossings.length ∧
      acc'.nested = acc.nested ++ [c].filter Crossing.isNestedExport ∧
      acc'.top.toList = acc.top.toList ++ [c].filter Crossing.isTopLevelExport := by
  have hext : acc.recording.extend [c] = { acc.recording with
      crossings := acc.recording.crossings ++ [c]
      markersIdentifyImports := acc.recording.markersIdentifyImports || c.markerBracketed } := by
    rw [Recording.extend, List.any_cons, List.any_nil, Bool.or_false]
  rw [appendCrossing] at h
  dsimp only at h
  split_ifs at h with hseq hkind hdepth
  · rw [ne_eq, not_not] at hseq
    cases h
    exact ⟨hext.symm, hseq, by simp [Crossing.isNestedExport, hkind, hdepth],
      by simp [Crossing.isTopLevelExport, hdepth.ne']⟩
  · rw [ne_eq, not_not] at hseq
    split at h
    · cases h
    · next htop =>
      cases h
      exact ⟨hext.symm, hseq, by simp [Crossing.isNestedExport, hdepth],
        by simp [Crossing.isTopLevelExport, hkind, htop, Nat.eq_zero_of_not_pos hdepth]⟩
  · rw [ne_eq, not_not] at hseq
    cases h
    exact ⟨hext.symm, hseq, by simp [Crossing.isNestedExport, hkind],
      by simp [Crossing.isTopLevelExport, hkind]⟩

variable {group : List Crossing}

/-- Taking in crossings: the recording grows, and the exports among them are collected. A
second one at the top has no place. -/
theorem feed_appendCrossing_ok {acc acc' : Appending}
    (h : feed appendCrossing acc group = .ok acc') :
    acc'.recording = acc.recording.extend group ∧
      acc'.nested = acc.nested ++ group.filter Crossing.isNestedExport ∧
      acc'.top.toList = acc.top.toList ++ group.filter Crossing.isTopLevelExport ∧
      ∀ (i : Nat) (c : Crossing), group[i]? = some c →
        c.seq = acc.recording.crossings.length + i := by
  induction group generalizing acc with
  | nil =>
    cases h
    exact ⟨(Recording.extend_nil _).symm, by simp, by simp, by simp⟩
  | cons c group ih =>
    obtain ⟨acc₁, hstep, hrest⟩ := feed_cons_ok h
    obtain ⟨hrec₁, hseq₁, hnested₁, htop₁⟩ := appendCrossing_ok hstep
    obtain ⟨hrec, hnested, htop, hseq⟩ := ih hrest
    have hfilter : ∀ p : Crossing → Bool, [c].filter p ++ group.filter p = (c :: group).filter p :=
      fun p => by rw [← List.filter_append, List.singleton_append]
    refine ⟨?_, ?_, ?_, ?_⟩
    · rw [hrec, hrec₁, Recording.extend_cons]
    · rw [hnested, hnested₁, List.append_assoc, hfilter]
    · rw [htop, htop₁, List.append_assoc, hfilter]
    · intro i c' hc'
      cases i with
      | zero =>
        cases hc'
        exact hseq₁
      | succ i =>
        rw [hseq i c' hc', hrec₁, Recording.extend, List.length_append, List.length_singleton]
        omega

theorem feed_appendCrossing_imports {acc : Appending} (himports : ∀ c ∈ group, c.kind = .import)
    (hseq : ∀ (i : Nat) (c : Crossing), group[i]? = some c →
      c.seq = acc.recording.crossings.length + i) :
    feed appendCrossing acc group =
      .ok { acc with recording := acc.recording.extend group } := by
  induction group generalizing acc with
  | nil => rw [Recording.extend_nil]; rfl
  | cons c group ih =>
    have hkind : ¬ c.kind = .export := by
      rw [himports c List.mem_cons_self]
      exact nofun
    have hc : ¬ c.seq ≠ acc.recording.crossings.length := not_not_intro (hseq 0 c rfl)
    have hstep : appendCrossing acc c = .ok { acc with recording := acc.recording.extend [c] } := by
      rw [appendCrossing]
      dsimp only
      rw [if_neg hc, if_neg hkind, Recording.extend, List.any_cons, List.any_nil, Bool.or_false]
    rw [feed_cons_of_ok hstep, ih (fun c' hc' => himports c' (List.mem_cons_of_mem _ hc'))]
    · rw [Recording.extend_cons]
    · intro i c' hc'
      rw [hseq (i + 1) c' hc', Recording.extend, List.length_append, List.length_singleton]
      omega

theorem Drivable.of_exports {n : Nat} {c : Crossing}
    (hnested : group.filter Crossing.isNestedExport = [])
    (htop : group.filter Crossing.isTopLevelExport = [c])
    (hseq : ∀ (i : Nat) (c' : Crossing), group[i]? = some c' → c'.seq = n + i)
    (hfirst : c.seq = n) : Drivable n group c := by
  have hmem : c ∈ group.filter Crossing.isTopLevelExport := by
    rw [htop]
    exact List.mem_singleton_self c
  obtain ⟨hc, hctop⟩ := List.mem_filter.mp hmem
  cases group with
  | nil => cases hc
  | cons c' rest =>
    -- the first crossing has the number of the export, so it is the export
    have hhead : c' = c := by
      obtain ⟨i, hi⟩ := List.mem_iff_getElem?.mp hc
      have := hseq i c hi
      obtain rfl : i = 0 := by omega
      cases hi
      rfl
    subst hhead
    rw [List.filter_cons_of_pos hctop, List.cons.injEq] at htop
    refine ⟨hctop, ⟨rest, rfl, fun x hx => ?_⟩, hseq⟩
    cases hkind : x.kind with
    | «import» => rfl
    | «export» =>
      exfalso
      have hnot : x.isTopLevelExport = false := by
        have := List.filter_eq_nil_iff.mp htop.2 x hx
        simpa using this
      have hnot' : x.isNestedExport = false := by
        have := List.filter_eq_nil_iff.mp hnested x (List.mem_cons_of_mem _ hx)
        simpa using this
      simp only [Crossing.isTopLevelExport, Crossing.isNestedExport, hkind, true_and,
        decide_eq_false_iff_not] at hnot hnot'
      omega

/-- **Which groups can be driven.** -/
theorem appendGroup_iff {r r' : Recording} {c : Crossing} :
    appendGroup r group = .ok (r', c) ↔
      r' = r.extend group ∧ Drivable r.crossings.length group c := by
  constructor
  · intro h
    rw [appendGroup] at h
    split_ifs at h
    split at h
    · cases h
    · next acc hacc =>
      obtain ⟨hrec, hnested, htop, hseq⟩ := feed_appendCrossing_ok hacc
      split at h
      · cases h
      · next hrefuse =>
        split at h
        · cases h
        · next c' hc' =>
          split_ifs at h with hfirst
          cases h
          rw [ne_eq, not_not] at hfirst
          rw [hc'] at htop
          rw [refuseNestedExports] at hrefuse
          split_ifs at hrefuse with hnil
          rw [hnil] at hnested
          exact ⟨hrec, .of_exports hnested.symm htop.symm hseq hfirst⟩
  · rintro ⟨rfl, htop, ⟨rest, rfl, himports⟩, hseq⟩
    have hc : ¬ c.seq ≠ r.crossings.length := not_not_intro (hseq 0 c rfl)
    simp only [Crossing.isTopLevelExport, decide_eq_true_eq] at htop
    have hstep : appendCrossing { recording := r } c =
        .ok { recording := r.extend [c], top := some c } := by
      rw [appendCrossing]
      dsimp only
      rw [if_neg hc, if_pos htop.1, if_neg (by omega), Recording.extend, List.any_cons,
        List.any_nil, Bool.or_false]
    have hfeed : feed appendCrossing { recording := r } (c :: rest) =
        .ok { recording := r.extend (c :: rest), top := some c } := by
      rw [feed_cons_of_ok hstep, feed_appendCrossing_imports himports]
      · rw [Recording.extend_cons]
      · intro i c' hc'
        rw [hseq (i + 1) c' hc', Recording.extend, List.length_append, List.length_singleton]
        omega
    rw [appendGroup, if_neg (List.cons_ne_nil _ _), hfeed]
    dsimp only
    rw [refuseNestedExports, if_pos rfl]
    dsimp only
    rw [if_neg hc]

/-! ### Preparation, rounds and the end -/

/-- The whole recording, from its start. -/
structure Options.Whole (opts : Options σ) : Prop where
  fromPoint : opts.fromPoint = 0
  toPoint : opts.toPoint = 0
  resume : opts.resume = none

/-- The driver of a streaming replay. -/
def streamDriver (guest : Guest σ κ) (opts : Options σ) (plans : List ImportPlan) : Driver σ κ :=
  ⟨guest, plans, true, opts.manifest, opts.atQuiescentPoint⟩

variable {fuel : Nat} {guest : Guest σ κ} {opts : Options σ} {r : Recording}

theorem prepareOnce_ok {streamed : Option HostState} {s : Session σ κ}
    (h : prepareOnce fuel guest opts streamed (.waiting r) = some (.ok s)) :
    ∃ state plans p₀ p, reconcileHostState r.hostState streamed = .ok state ∧
      planImports guest.compiled opts.manifest = .ok plans ∧
      (streamDriver guest opts plans).prepare fuel { r with hostState := state } =
        some (.ok p₀) ∧
      (streamDriver guest opts plans).passPoint 0 p₀ = .ok p ∧
      s = ⟨streamDriver guest opts plans, p, { r with hostState := state },
        r.hostState.isNone && streamed.isSome, 0⟩ := by
  rw [prepareOnce] at h
  split at h
  · cases h
  · next state hstate =>
    split at h
    · cases h
    · next plans hplans =>
      dsimp only at h
      split at h
      · cases h
      · cases h
      · next p₀ hprep =>
        split at h
        · cases h
        · next p hpass =>
          cases h
          exact ⟨state, plans, p₀, p, hstate, hplans, hprep, hpass, rfl⟩

namespace Session

variable {s s' : Session σ κ}

theorem driveGroup_ok {group : List Crossing} (h : s.driveGroup fuel group = some (.ok s')) :
    ∃ r c p, appendGroup s.recording group = .ok (r, c) ∧
      s.driver.checkExportCrossing c = .ok () ∧
      s.driver.driveCall fuel r s.point s.progress c = some (.ok p) ∧
      s' = { s with recording := r, progress := p, point := s.point + 1 } := by
  rw [driveGroup] at h
  split at h
  · cases h
  · next r c happ =>
    split at h
    · cases h
    · next hcheck =>
      split at h
      · cases h
      · cases h
      · next p hdrive =>
        cases h
        exact ⟨r, c, p, happ, hcheck, hdrive, rfl⟩

/-- Drive the groups that arrive, one after the other. -/
def driveArrivals (fuel : Nat) (s : Session σ κ) :
    List Arrival → Option (Except StreamReplayError (Session σ κ))
  | [] => some (.ok s)
  | (group, streamed) :: l =>
    match (s.refresh streamed).driveGroup fuel group with
    | none => none
    | some (.error e) => some (.error e)
    | some (.ok s') => driveArrivals fuel s' l

theorem driveArrivals_cons_ok {group : List Crossing} {streamed : Option HostState}
    {l : List Arrival} (h : s.driveArrivals fuel ((group, streamed) :: l) = some (.ok s')) :
    ∃ s₁, (s.refresh streamed).driveGroup fuel group = some (.ok s₁) ∧
      s₁.driveArrivals fuel l = some (.ok s') := by
  rw [driveArrivals] at h
  split at h
  · cases h
  · cases h
  · next s₁ hs₁ => exact ⟨s₁, hs₁, h⟩

theorem driveArrivals_cons {group : List Crossing} {streamed : Option HostState}
    {s₁ : Session σ κ} (l : List Arrival)
    (h : (s.refresh streamed).driveGroup fuel group = some (.ok s₁)) :
    s.driveArrivals fuel ((group, streamed) :: l) = s₁.driveArrivals fuel l := by
  rw [driveArrivals, h]

theorem finish_ok {truncation : Option TruncationError} {out : StreamResult σ}
    (h : s.finish truncation = .ok out) :
    out = ⟨{ s.progress with replayer := { s.progress.replayer with
        result := { s.progress.replayer.result with fromPoint := 0, toPoint := s.point } } },
        s.recording, truncation⟩ ∧
      (∀ strict, s.progress.replayer.deferredValueless = some strict →
        s.recording.markersIdentifyImports = false ∧ truncation = none) ∧
      (truncation = none → s.progress.replayer.cursor = s.recording.crossings.length) := by
  rw [finish] at h
  dsimp only at h
  split at h
  · cases h
  · next hdef =>
    split_ifs at h with hcursor
    cases h
    refine ⟨rfl, fun strict hstrict => ?_, fun hnone => ?_⟩
    · rw [resolveDeferredValuelessImports] at hdef
      dsimp only at hdef
      rw [hstrict] at hdef
      dsimp only at hdef
      split_ifs at hdef with hmark
      · split at hdef <;> cases hdef
      · cases truncation with
        | some t => cases hdef
        | none => exact ⟨Bool.eq_false_iff.mpr hmark, rfl⟩
    · by_contra hne
      exact hcursor ⟨hnone, hne⟩

theorem finish_eq {truncation : Option TruncationError}
    (hdef : ∀ strict, s.progress.replayer.deferredValueless = some strict →
      s.recording.markersIdentifyImports = false ∧ truncation = none)
    (hcursor : truncation = none → s.progress.replayer.cursor = s.recording.crossings.length) :
    s.finish truncation = .ok ⟨{ s.progress with replayer := { s.progress.replayer with
        result := { s.progress.replayer.result with fromPoint := 0, toPoint := s.point } } },
        s.recording, truncation⟩ := by
  have hresolve : resolveDeferredValuelessImports s.recording
      { s.progress.replayer with
        result := { s.progress.replayer.result with fromPoint := 0, toPoint := s.point } }
      truncation = .ok () := by
    rw [resolveDeferredValuelessImports]
    cases hd : s.progress.replayer.deferredValueless with
    | none => rfl
    | some strict =>
      obtain ⟨hmark, rfl⟩ := hdef strict hd
      dsimp only
      rw [hmark]
      rfl
  rw [finish]
  dsimp only
  rw [hresolve]
  dsimp only
  rw [if_neg fun h => h.2 (hcursor h.1)]

end Session

/-- How the end of a stream ends the loop: cleanly, with a truncation, or with an error. -/
def NextError.ending : NextError → Except StreamError (Option TruncationError)
  | .eof => .ok none
  | .failed (.truncation t) => .ok (some t)
  | .failed e => .error e

variable {reader : StreamReader} {stage : Stage σ κ}

theorem streamLoop_stop {rounds : Nat} {t : StreamReader} {e : NextError}
    (h : reader.nextGroup = (t, .error e)) :
    streamLoop fuel guest opts (rounds + 1) reader stage = match e.ending with
      | .ok truncation => some (.ok (t, stage, truncation))
      | .error e => some (.error (.stream e)) := by
  rw [streamLoop, h]
  rcases e with - | (t | e | e | e | e) <;> rfl

theorem streamLoop_more_ok {rounds : Nat} {reader' : StreamReader}
    {out : StreamReader × Stage σ κ × Option TruncationError}
    (hnext : reader.nextGroup = (reader', .ok group))
    (h : streamLoop fuel guest opts (rounds + 1) reader stage = some (.ok out)) :
    ∃ s s', prepareOnce fuel guest opts reader'.asm.hostState stage = some (.ok s) ∧
      (s.refresh reader'.asm.hostState).driveGroup fuel group = some (.ok s') ∧
      streamLoop fuel guest opts rounds reader' (.prepared s') = some (.ok out) := by
  rw [streamLoop, hnext] at h
  dsimp only at h
  split at h
  · cases h
  · cases h
  · next s hs =>
    split at h
    · cases h
    · cases h
    · next s' hs' => exact ⟨s, s', hs, hs', h⟩

theorem streamLoop_more {rounds : Nat} {reader' : StreamReader} {s s' : Session σ κ}
    (hnext : reader.nextGroup = (reader', .ok group))
    (hs : prepareOnce fuel guest opts reader'.asm.hostState stage = some (.ok s))
    (hs' : (s.refresh reader'.asm.hostState).driveGroup fuel group = some (.ok s')) :
    streamLoop fuel guest opts (rounds + 1) reader stage =
      streamLoop fuel guest opts rounds reader' (.prepared s') := by
  rw [streamLoop, hnext]
  dsimp only
  rw [hs]
  dsimp only
  rw [hs']

theorem streamLoop_prepared_ok {rounds : Nat} {t : StreamReader} {l : List Arrival}
    {e : NextError} (harr : Arrives reader l e t) {s : Session σ κ}
    {out : StreamReader × Stage σ κ × Option TruncationError}
    (h : streamLoop fuel guest opts rounds reader (.prepared s) = some (.ok out)) :
    ∃ s' truncation, s.driveArrivals fuel l = some (.ok s') ∧ e.ending = .ok truncation ∧
      out = (t, .prepared s', truncation) := by
  induction harr generalizing rounds s with
  | stop hnext =>
    cases rounds with
    | zero => cases h
    | succ rounds =>
      rw [streamLoop_stop hnext] at h
      split at h
      · next truncation hend =>
        cases h
        exact ⟨s, truncation, rfl, hend, rfl⟩
      · cases h
  | more hnext _ ih =>
    cases rounds with
    | zero => cases h
    | succ rounds =>
      obtain ⟨s₁, s₂, hs₁, hs₂, hrest⟩ := streamLoop_more_ok hnext h
      cases hs₁
      obtain ⟨s', truncation, hdrive, hend, hout⟩ := ih hrest
      exact ⟨s', truncation, (Session.driveArrivals_cons _ hs₂).trans hdrive, hend, hout⟩

theorem streamLoop_prepared {t : StreamReader} {l : List Arrival} {e : NextError}
    (harr : Arrives reader l e t) {s s' : Session σ κ} {truncation : Option TruncationError}
    (hdrive : s.driveArrivals fuel l = some (.ok s')) (hend : e.ending = .ok truncation) :
    streamLoop fuel guest opts (l.length + 1) reader (.prepared s) =
      some (.ok (t, .prepared s', truncation)) := by
  induction harr generalizing s with
  | stop hnext =>
    cases hdrive
    rw [streamLoop_stop hnext, hend]
  | more hnext _ ih =>
    obtain ⟨s₁, hs₁, hrest⟩ := Session.driveArrivals_cons_ok hdrive
    rw [List.length_cons, streamLoop_more hnext rfl hs₁, ih hrest hend]

theorem driveStream_ok {rounds : Nat} {out : StreamResult σ}
    (h : driveStream rounds fuel guest opts reader stage = some (.ok out)) :
    ∃ t stage' truncation s,
      streamLoop fuel guest opts rounds reader stage = some (.ok (t, stage', truncation)) ∧
      prepareOnce fuel guest opts t.asm.hostState stage' = some (.ok s) ∧
      (s.refresh t.asm.hostState).finish truncation = .ok out := by
  rw [driveStream] at h
  split at h
  · cases h
  · cases h
  · next t stage' truncation hloop =>
    split at h
    · cases h
    · cases h
    · next s hs => exact ⟨t, stage', truncation, s, hloop, hs, Option.some.inj h⟩

theorem driveStream_eq {rounds : Nat} {t : StreamReader} {stage' : Stage σ κ}
    {truncation : Option TruncationError} {s : Session σ κ}
    (hloop : streamLoop fuel guest opts rounds reader stage = some (.ok (t, stage', truncation)))
    (hs : prepareOnce fuel guest opts t.asm.hostState stage' = some (.ok s)) :
    driveStream rounds fuel guest opts reader stage =
      some ((s.refresh t.asm.hostState).finish truncation) := by
  rw [driveStream, hloop]
  dsimp only
  rw [hs]

section

variable {reader t : StreamReader} {l : List Arrival} {e : NextError} {out : StreamResult σ}

theorem driveStream_prepared_iff (harr : Arrives reader l e t) {s : Session σ κ} :
    (∃ rounds, driveStream rounds fuel guest opts reader (.prepared s) = some (.ok out)) ↔
      ∃ s' truncation, s.driveArrivals fuel l = some (.ok s') ∧ e.ending = .ok truncation ∧
        (s'.refresh t.asm.hostState).finish truncation = .ok out := by
  constructor
  · rintro ⟨rounds, h⟩
    obtain ⟨t', stage', truncation, s₁, hloop, hs₁, hfin⟩ := driveStream_ok h
    obtain ⟨s', truncation', hdrive, hend, hout⟩ := streamLoop_prepared_ok harr hloop
    cases hout
    cases hs₁
    exact ⟨s₁, truncation, hdrive, hend, hfin⟩
  · rintro ⟨s', truncation, hdrive, hend, hfin⟩
    refine ⟨l.length + 1, ?_⟩
    rw [driveStream_eq (streamLoop_prepared harr hdrive hend) rfl, hfin]

theorem driveStream_waiting_iff (harr : Arrives reader l e t) :
    (∃ rounds, driveStream rounds fuel guest opts reader (.waiting r) = some (.ok out)) ↔
      ∃ s₀ s' truncation,
        prepareOnce fuel guest opts ((l.head?.map Prod.snd).getD t.asm.hostState)
          (.waiting r) = some (.ok s₀) ∧
        s₀.driveArrivals fuel l = some (.ok s') ∧ e.ending = .ok truncation ∧
        (s'.refresh t.asm.hostState).finish truncation = .ok out := by
  cases harr with
  | stop hnext =>
    constructor
    · rintro ⟨rounds, h⟩
      obtain ⟨t', stage', truncation, s₁, hloop, hs₁, hfin⟩ := driveStream_ok h
      cases rounds with
      | zero => cases hloop
      | succ rounds =>
        rw [streamLoop_stop hnext] at hloop
        split at hloop
        · next truncation' hend =>
          cases hloop
          exact ⟨s₁, s₁, truncation, hs₁, rfl, hend, hfin⟩
        · cases hloop
    · rintro ⟨s₀, s', truncation, hs₀, hdrive, hend, hfin⟩
      cases hdrive
      have hloop : streamLoop fuel guest opts 1 reader (.waiting r) =
          some (.ok (t, .waiting r, truncation)) := by
        rw [streamLoop_stop hnext, hend]
      refine ⟨1, ?_⟩
      rw [driveStream_eq hloop hs₀, hfin]
  | more hnext hrest =>
    next reader' group l' =>
    constructor
    · rintro ⟨rounds, h⟩
      obtain ⟨t', stage', truncation, s₁, hloop, hs₁, hfin⟩ := driveStream_ok h
      cases rounds with
      | zero => cases hloop
      | succ rounds =>
        obtain ⟨s₀, s₂, hs₀, hs₂, hmore⟩ := streamLoop_more_ok hnext hloop
        obtain ⟨s', truncation', hdrive, hend, hout⟩ := streamLoop_prepared_ok hrest hmore
        cases hout
        cases hs₁
        exact ⟨s₀, s₁, truncation, hs₀, (Session.driveArrivals_cons _ hs₂).trans hdrive, hend,
          hfin⟩
    · rintro ⟨s₀, s', truncation, hs₀, hdrive, hend, hfin⟩
      obtain ⟨s₂, hs₂, hmore⟩ := Session.driveArrivals_cons_ok hdrive
      have hloop : streamLoop fuel guest opts (l'.length + 1 + 1) reader (.waiting r) =
          some (.ok (t, .prepared s', truncation)) :=
        (streamLoop_more hnext hs₀ hs₂).trans (streamLoop_prepared hrest hmore hend)
      refine ⟨l'.length + 1 + 1, ?_⟩
      rw [driveStream_eq hloop rfl, hfin]

/-- The host state the stream has carried when the module is instantiated: nothing, or, when
it has to wait, what came with the first group. -/
def streamedAtStart (guest : Guest σ κ) (r : Recording) (reader t : StreamReader)
    (l : List Arrival) : Option HostState :=
  if undescribedImportedMemory guest.compiled r.hostState = none then reader.asm.hostState
  else (l.head?.map Prod.snd).getD t.asm.hostState

/-- **A streaming replay returns without an error** exactly when its module can be
instantiated, the groups that arrive can be driven one after the other, the stream ends
cleanly or truncated, and the end check passes. -/
theorem streamingReplay_iff (harr : Arrives reader l e t) :
    (∃ rounds, streamingReplay rounds fuel guest opts r reader = some (.ok out)) ↔
      r.crossings = [] ∧ opts.Whole ∧ ∃ s₀ s' truncation,
        prepareOnce fuel guest opts (streamedAtStart guest r reader t l) (.waiting r) =
          some (.ok s₀) ∧
        s₀.driveArrivals fuel l = some (.ok s') ∧ e.ending = .ok truncation ∧
        (s'.refresh t.asm.hostState).finish truncation = .ok out := by
  by_cases hcs : r.crossings = []
  · by_cases hwhole : opts.Whole
    · have hseek : ¬ (opts.fromPoint ≠ 0 ∨ opts.toPoint ≠ 0 ∨ opts.resume.isSome = true) := by
        rw [hwhole.fromPoint, hwhole.toPoint, hwhole.resume]
        simp
      simp only [streamingReplay, if_neg (not_not_intro hcs), if_neg hseek]
      simp only [hcs, hwhole, true_and]
      rw [startStream, streamedAtStart]
      cases hmem : undescribedImportedMemory guest.compiled r.hostState with
      | some m =>
        rw [if_neg (Option.some_ne_none m)]
        exact driveStream_waiting_iff harr
      | none =>
        rw [if_pos rfl]
        dsimp only
        cases hprep : prepareOnce fuel guest opts reader.asm.hostState (.waiting r) with
        | none => simp
        | some x =>
          cases x with
          | error e => simp
          | ok s₀ =>
            dsimp only
            rw [driveStream_prepared_iff harr]
            constructor
            · rintro ⟨s', truncation, h⟩
              exact ⟨s₀, s', truncation, rfl, h⟩
            · rintro ⟨s₁, s', truncation, heq, h⟩
              cases heq
              exact ⟨s', truncation, h⟩
    · refine iff_of_false ?_ fun h => hwhole h.2.1
      rintro ⟨rounds, h⟩
      rw [streamingReplay, if_neg (not_not_intro hcs)] at h
      split_ifs at h with hseek
      · cases h
      push Not at hseek
      exact hwhole ⟨hseek.1, hseek.2.1, by simpa using hseek.2.2⟩
  · refine iff_of_false ?_ fun h => hcs h.1
    rintro ⟨rounds, h⟩
    rw [streamingReplay, if_pos hcs] at h
    cases h

end

end Boundarylog
