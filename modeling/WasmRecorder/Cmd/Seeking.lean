import WasmRecorder.Cmd.Snapshots
import WasmRecorder.Wasmsnapshot.Materialise

/-!
# Seeking

A seek to a point goes through the nearest snapshot at or before it. The replay starts at that
snapshot, and the recorder is attached by a hook once the point that was asked for is reached. The
range of the replay is checked against the recording by the driver, which knows nothing of the
hook.

* `watch_attached` — at which points of a run the recorder is attached.
* `records_range_iff` — when the calls that are recorded are those that were asked for.
-/

namespace Cmd

open Boundarylog (State Recording Options Hook chainHooks Guest CallLog Manifest
  forwarderTwiceScript forwardedTwice)
open Wasmsnapshot (IndexRecord Snapshot)
open Fallible (returnsWith returnsWith_iff)

variable {σ κ : Type}

/-! ### Hooks and the recorder -/

/-- A hook that leaves the recorder as it is. -/
def KeepsRecorder (h : Hook Watch σ) : Prop :=
  ∀ point st w w', h point st w = .ok w' → w'.recorder = w.recorder

theorem deriveHook_keepsRecorder (env : Env σ) (every : Int) (count : Nat) :
    KeepsRecorder (deriveHook env every count) := by
  intro point st w w' h
  rw [deriveHook] at h
  split_ifs at h
  · cases h
    rfl
  split at h
  · cases h
    rfl
  split at h
  · cases h
  dsimp only at h
  split at h
  · cases h
  · cases h
    rfl

theorem chainHooks_keepsRecorder {hooks : List (Hook Watch σ)}
    (h : ∀ x ∈ hooks, KeepsRecorder x) : KeepsRecorder (chainHooks hooks) := by
  induction hooks with
  | nil =>
    intro point st w w' hw
    cases hw
    rfl
  | cons x xs ih =>
    intro point st w w' hw
    obtain ⟨hx, hxs⟩ := List.forall_mem_cons.mp h
    obtain ⟨w₁, h₁, h₂⟩ := Fallible.bind_eq_ok.mp hw
    rw [ih hxs _ _ _ _ h₂, hx _ _ _ _ h₁]

variable {recorder : Option RecorderId}

theorem chainHooks_attach {want : Int} {hooks : List (Hook Watch σ)}
    (h : ∀ x ∈ hooks, KeepsRecorder x) {point : Nat} {st : State σ} {w w' : Watch}
    (hw : chainHooks (attachHook want recorder :: hooks) point st w = .ok w') :
    w'.recorder = if (point : Int) = want then recorder else w.recorder := by
  obtain ⟨w₁, h₁, h₂⟩ := Fallible.bind_eq_ok.mp hw
  rw [chainHooks_keepsRecorder h _ _ _ _ h₂]
  change (if (point : Int) ≠ want then Except.ok w else .ok { w with recorder }) = .ok w₁ at h₁
  split_ifs at h₁ with hne
  · cases h₁
    rw [if_neg hne]
  · cases h₁
    rw [if_pos (not_not.mp hne)]

/-- **When the recorder is attached.** Along consecutive points the recorder is the one at the
start up to the point it is attached at, and the new one from there on. -/
theorem watch_attached {h : Hook Watch σ} {want : Nat}
    (hstep : ∀ point st w w', h point st w = .ok w' →
      w'.recorder = if point = want then recorder else w.recorder) {points : List (Nat × State σ)}
    {start : Nat} {w : Watch} {trail : List Watch}
    (hpoints : points.map Prod.fst = List.range' start points.length)
    (hw : h.watch w points = .ok trail) :
    trail.map Watch.recorder = (List.range' start points.length).map fun k =>
      if start ≤ want ∧ want ≤ k then recorder else w.recorder := by
  induction points generalizing start w trail with
  | nil =>
    cases hw
    rfl
  | cons x rest ih =>
    obtain ⟨point, st⟩ := x
    obtain ⟨w', trail', hpoint, hrest, rfl⟩ := Hook.watch_cons_ok hw
    rw [List.length_cons, List.range'_succ, List.map_cons, List.cons.injEq] at hpoints
    obtain ⟨rfl, hnumbers⟩ := hpoints
    have hrec := hstep _ _ _ _ hpoint
    rw [List.length_cons, List.range'_succ, List.map_cons, List.map_cons, ih hnumbers hrest, hrec]
    congr 1
    · -- at the first point the recorder changes only if it is the one
      by_cases heq : point = want
      · rw [if_pos heq, if_pos ⟨heq.le, heq.ge⟩]
      · rw [if_neg heq, if_neg fun hc => heq (le_antisymm hc.1 hc.2)]
    · refine List.map_congr_left fun k hk => ?_
      obtain ⟨i, -, rfl⟩ := List.mem_range'.mp hk
      by_cases heq : point = want
      · rw [if_pos heq, ite_self, if_pos (by omega)]
      · rw [if_neg heq]
        exact if_congr (by omega) rfl rfl

/-! ### Recorded calls -/

theorem filter_zip_range {α : Type} (cs : List α) {start m : Nat} (want : Nat)
    (hm : cs.length ≤ m) :
    ((((List.range' start m).map fun k => decide (want ≤ k)).zip cs).filter Prod.fst).map
      Prod.snd = cs.drop (want - start) := by
  induction cs generalizing start m with
  | nil => simp
  | cons c cs ih =>
    obtain ⟨m, rfl⟩ : ∃ m', m = m' + 1 := ⟨m - 1, by rw [List.length_cons] at hm; omega⟩
    have ih' := @ih (start + 1) m (Nat.le_of_succ_le_succ hm)
    rw [List.range'_succ, List.map_cons, List.zip_cons_cons, List.filter_cons]
    by_cases hle : want ≤ start
    · rw [if_pos (by simpa using hle), List.map_cons, ih', Nat.sub_eq_zero_of_le hle,
        Nat.sub_eq_zero_of_le (by omega), List.drop_zero, List.drop_zero]
    · rw [if_neg (by simpa using hle), ih']
      obtain ⟨k, hk⟩ : ∃ k, want - start = k + 1 := ⟨want - start - 1, by omega⟩
      rw [hk, List.drop_succ_cons]
      congr 1
      omega

theorem recordedCalls_eq {x : Run σ} {start m want : Nat}
    (hrec : x.trail.map Watch.recorder = (List.range' start m).map fun k =>
      if want ≤ k then some RecorderId.whole else none)
    (hm : x.progress.calls.length ≤ m) :
    x.recordedCalls = (x.progress.calls.map CallLog.crossing).drop (want - start) := by
  have hattached : (x.trail.map fun w => w.recorder.isSome) =
      (List.range' start m).map fun k => decide (want ≤ k) := by
    have h := congrArg (List.map Option.isSome) hrec
    rw [List.map_map, List.map_map] at h
    rw [show (fun w : Watch => w.recorder.isSome) = Option.isSome ∘ Watch.recorder from rfl, h]
    refine List.map_congr_left fun k _ => ?_
    by_cases hk : want ≤ k <;> simp [hk]
  rw [← filter_zip_range (x.progress.calls.map CallLog.crossing) want (by simpa using hm),
    ← hattached, List.zip_map, List.filter_map, List.map_map, Run.recordedCalls]
  rfl

/-! ### Plans -/

theorem nearest_le {set : Wasmsnapshot.SnapshotSet} {point : Int} {nearest : IndexRecord}
    (h : set.nearest point = some nearest) : (nearest.ordinal.toNat : Int) ≤ point := by
  have hmem := List.mem_reverse.mp (List.mem_of_find?_eq_some h)
  simpa using List.mem_takeWhile_imp hmem

/-- A plan for a seek: where it starts and stops, and how the recorder is attached. -/
structure SeekPlan (o : SnapshotOptions) (plan : Plan σ) (recorder : Option RecorderId) (start : Nat) :
    Prop where
  fromPoint : plan.opts.fromPoint = start
  toPoint : plan.opts.toPoint = if 0 < o.to_ then o.to_ else 0
  le : (start : Int) ≤ o.from_
  /-- The other hooks leave the recorder as it is. -/
  hooks : ∃ hooks, (∀ x ∈ hooks, KeepsRecorder x) ∧
    ((start : Int) < o.from_ ∧ plan.start.recorder = none ∧
        plan.hooks = attachHook o.from_ recorder :: hooks ∨
      (start : Int) = o.from_ ∧ plan.start.recorder = recorder ∧ plan.hooks = hooks)

variable {o : SnapshotOptions}

theorem derivePlan_keepsRecorder {env : Env σ} {points : List Wasmsnapshot.QuiescentPoint}
    {builder : Option Wasmsnapshot.Builder} {hooks : List (Hook Watch σ)}
    (h : o.derivePlan env points = .ok (builder, hooks)) : ∀ x ∈ hooks, KeepsRecorder x := by
  rw [SnapshotOptions.derivePlan] at h
  by_cases hd : ¬ o.derive = true
  · rw [if_pos hd] at h
    cases h
    exact fun x hx => absurd hx List.not_mem_nil
  · rw [if_neg hd] at h
    split at h
    · cases h
    · cases h
      intro x hx
      obtain rfl := List.mem_singleton.mp hx
      exact deriveHook_keepsRecorder _ _ _

theorem seekPlan_ok {env : Env σ} {opts : Options σ} {s : SnapshotOptions.Seek σ}
    (hseek : o.seeking = true) (h : o.seekPlan env opts recorder = .ok s) :
    ∃ (nearest : IndexRecord) (snap : Snapshot), (nearest.ordinal.toNat : Int) ≤ o.from_ ∧
      s = o.seekVia env opts recorder nearest snap := by
  rw [SnapshotOptions.seekPlan, if_neg (not_not_intro hseek)] at h
  split at h
  · cases h
  · cases h
  split at h
  · cases h
  · cases h
  split at h
  · cases h
  next nearest hnearest =>
  split at h
  · cases h
  next snap _ =>
  cases h
  exact ⟨nearest, snap, nearest_le hnearest, rfl⟩

theorem configure_seeking {env : Env σ} {r : Recording} {manifest : Option Manifest}
    {plan : Plan σ} (hseek : o.seeking = true)
    (h : o.configure env r { manifest } recorder = .ok plan) :
    o.validate = .ok () ∧ ∃ start, SeekPlan o plan recorder start := by
  rw [SnapshotOptions.configure] at h
  split at h
  · cases h
  next hvalid =>
  refine ⟨hvalid, ?_⟩
  rw [if_neg fun hslice => (SnapshotOptions.validate_ok hvalid).2.2 ⟨hslice, hseek⟩] at h
  split at h
  · cases h
  split at h
  · cases h
  next s hs =>
  split at h
  · cases h
  next builder hooks hd =>
  cases h
  obtain ⟨nearest, snap, hle, rfl⟩ := seekPlan_ok hseek hs
  have hkeep := derivePlan_keepsRecorder hd
  refine ⟨nearest.ordinal.toNat, ?_⟩
  rw [SnapshotOptions.seekVia]
  dsimp only
  by_cases hlt : (nearest.ordinal.toNat : Int) < o.from_
  · rw [if_pos hlt]
    exact ⟨rfl, rfl, hle, hooks, hkeep, .inl ⟨hlt, rfl, rfl⟩⟩
  · rw [if_neg hlt]
    exact ⟨rfl, rfl, hle, hooks, hkeep, .inr ⟨le_antisymm hle (not_lt.mp hlt), rfl, rfl⟩⟩

theorem SeekPlan.trail {plan : Plan σ} {start : Nat} (h : SeekPlan o plan (some .whole) start)
    {points : List (Nat × State σ)} {trail : List Watch}
    (hpoints : points.map Prod.fst = List.range' start points.length)
    (hw : (chainHooks plan.hooks).watch plan.start points = .ok trail) :
    trail.map Watch.recorder = (List.range' start points.length).map fun k =>
      if o.from_.toNat ≤ k then some RecorderId.whole else none := by
  have hfrom : ((o.from_.toNat : Nat) : Int) = o.from_ :=
    Int.toNat_of_nonneg ((Int.natCast_nonneg start).trans h.le)
  obtain ⟨hooks, hkeep, ⟨hlt, hrec, hhooks⟩ | ⟨heq, hrec, hhooks⟩⟩ := h.hooks
  · have hstep : ∀ point st w w', chainHooks plan.hooks point st w = .ok w' →
        w'.recorder = if point = o.from_.toNat then some .whole else w.recorder := by
      intro point st w w' hw'
      rw [hhooks] at hw'
      rw [chainHooks_attach hkeep hw']
      exact if_congr (by omega) rfl rfl
    rw [watch_attached hstep hpoints hw, hrec]
    exact List.map_congr_left fun k _ => if_congr (by omega) rfl rfl
  · -- the recorder is there from the start, and nothing takes it away
    have hall := Hook.watch_invariant (I := fun w => w.recorder = some .whole)
      (fun point st w w' hw₀ hw' => (chainHooks_keepsRecorder hkeep _ _ _ _ hw').trans hw₀)
      hrec (hhooks ▸ hw)
    rw [List.map_congr_left hall, List.map_const', Hook.watch_length hw]
    refine (List.eq_replicate_iff.mpr ⟨by simp, fun b hb => ?_⟩).symm
    obtain ⟨k, hk, rfl⟩ := List.mem_map.mp hb
    obtain ⟨i, -, rfl⟩ := List.mem_range'.mp hk
    exact if_pos (by omega)

/-! ### The calls that are recorded -/

/-- The calls that a seek asks for are recorded, and no others: those from `--seek-from` to
`--seek-to`, or to the end of the recording, and the point it starts at exists. -/
def RecordsRange (o : SnapshotOptions) (r : Recording) (x : Run σ) : Prop :=
  let stop := if o.to_ = 0 then r.topLevelExports.length else o.to_.toNat
  o.from_ ≤ r.topLevelExports.length ∧
    x.recordedCalls = (r.topLevelExports.drop o.from_.toNat).take (stop - o.from_.toNat)

theorem Plan.replay_ok {plan : Plan σ} {fuel : Nat} {guest : Guest σ κ} {r : Recording} {x : Run σ}
    (h : plan.replay fuel guest r = some (.ok x)) :
    Boundarylog.replay fuel guest plan.opts r = some (.ok x.progress) ∧
      (chainHooks plan.hooks).watch plan.start x.progress.points = .ok x.trail := by
  rw [Plan.replay] at h
  split at h
  · cases h
  · cases h
  next p hp =>
  rw [Option.some.injEq] at h
  cases hw : (chainHooks plan.hooks).watch plan.start p.points with
  | error e =>
    rw [hw] at h
    cases h
  | ok trail =>
    rw [hw] at h
    cases h
    exact ⟨hp, hw⟩

theorem SeekPlan.recordsRange {r : Recording} {plan : Plan σ} {start fuel : Nat}
    {guest : Guest σ κ} {x : Run σ} (h : SeekPlan o plan (some .whole) start) (hto : 0 ≤ o.to_)
    (hrun : plan.replay fuel guest r = some (.ok x))
    (hexists : o.from_ ≤ r.topLevelExports.length) : RecordsRange o r x := by
  obtain ⟨hreplay, hwatch⟩ := Plan.replay_ok hrun
  obtain ⟨start', stop, hrange, hpoints, hcalls⟩ := Boundarylog.replay_log hreplay
  obtain ⟨hstart, hstop⟩ := Boundarylog.resolveRange_points hrange
  obtain ⟨hle, hN⟩ := Boundarylog.resolveRange_ok hrange
  obtain rfl : start' = start := by
    rw [h.fromPoint] at hstart
    exact_mod_cast hstart
  have hlen : x.progress.points.length = stop - start' + 1 := by
    rw [← List.length_map Prod.fst, hpoints, List.length_range']
  have hncalls : x.progress.calls.length ≤ x.progress.points.length := by
    rw [hlen, ← List.length_map CallLog.crossing, hcalls, List.length_take]
    omega
  have htrail := h.trail (by rw [hpoints, hlen]) hwatch
  have hfrom := h.le
  refine ⟨hexists, ?_⟩
  rw [recordedCalls_eq htrail hncalls, hcalls, List.drop_take, List.drop_drop]
  have hsum : start' + (o.from_.toNat - start') = o.from_.toNat := by omega
  have hlast : stop = if o.to_ = 0 then r.topLevelExports.length else o.to_.toNat := by
    rw [h.toPoint] at hstop
    split_ifs at hstop ⊢ <;> omega
  rw [hsum, ← hlast]
  congr 1
  omega

/-- **A seek records the range it was asked for** exactly when a last point was given, or the point
it starts at exists. A last point past the end of the recording is refused by the driver; a first
point past the end is not, as the driver is only told of the snapshot. -/
theorem records_range_iff (env : Env σ) (o : SnapshotOptions) (fuel : Nat) (guest : Guest σ κ)
    (manifest : Option Manifest) (r : Recording) (plan : Plan σ) (x : Run σ)
    (hseek : o.seeking = true)
    (hplan : o.configure env r { manifest } (some .whole) = .ok plan)
    (hrun : plan.replay fuel guest r = some (.ok x)) :
    RecordsRange o r x ↔ o.to_ ≠ 0 ∨ o.from_ ≤ r.topLevelExports.length := by
  obtain ⟨hvalid, start, h⟩ := configure_seeking hseek hplan
  obtain ⟨hto, hlt, -⟩ := SnapshotOptions.validate_ok hvalid
  constructor
  · intro hrecords
    exact .inr hrecords.1
  · rintro (hgiven | hexists)
    · -- the driver has checked the last point, and the first lies before it
      obtain ⟨hreplay, -⟩ := Plan.replay_ok hrun
      obtain ⟨start', stop, hrange, -, -⟩ := Boundarylog.replay_log hreplay
      obtain ⟨-, hstop⟩ := Boundarylog.resolveRange_points hrange
      obtain ⟨-, hN⟩ := Boundarylog.resolveRange_ok hrange
      have hpos : 0 < o.to_ := lt_of_le_of_ne hto (Ne.symm hgiven)
      rw [h.toPoint, if_pos hpos, if_neg hgiven] at hstop
      have := hlt hgiven hseek
      exact h.recordsRange hto hrun (by omega)
    · exact h.recordsRange hto hrun hexists

/-- An instance without memory, globals and tables. -/
def blankInstance : Wasm.ModuleInstance where
  globals := []
  memory := none
  tables := []
  engine := ⟨[], List.nodup_nil, List.not_mem_nil, by decide⟩
  dataInstances := []
  elementInstances := []

/-- A snapshot at point zero, in which nothing is stored. -/
def blankStreams : Wasmsnapshot.Streams where
  index := Wasmsnapshot.encodeIndex
    [{ ordinal := 0, exportsBefore := 0, crossingSeq := 0, flags := Wasmsnapshot.flagHasSnapshot }]
  layout := []
  inlineMem := []
  pages := []
  globals := []
  tables := []

/-- A container with that snapshot. -/
def blankEnv : Env σ where
  hashPage := fun _ => ⟨0, 0⟩
  instanceOf := fun _ => blankInstance
  withInstance := fun st _ => st
  container := fun _ => .ok (some blankStreams)
  host := none
  hostAt := fun _ => none
  sealing := fun _ => ⟨none, false⟩
  lastSealing := ⟨none, false⟩

/-- Seek to a point with that container. -/
def seekTo (point : Int) : SnapshotOptions := { source := "a.ct".toList, from_ := point }

theorem records_range_iff_second :
    ∃ (plan : Plan Nat) (x : Run Nat),
      (seekTo 1).configure blankEnv forwardedTwice {} (some .whole) = .ok plan ∧
      plan.replay 10 forwarderTwiceScript.guest forwardedTwice = some (.ok x) ∧
      RecordsRange (seekTo 1) forwardedTwice x := by
  have hrun : returnsWith
      (fun plan => returnsWith (fun _ => true)
        (plan.replay 10 forwarderTwiceScript.guest forwardedTwice))
      (some ((seekTo 1).configure blankEnv forwardedTwice {} (some .whole))) = true := by
    decide +kernel
  obtain ⟨plan, hplan, hreplay⟩ := returnsWith_iff.mp hrun
  obtain ⟨x, hx, -⟩ := returnsWith_iff.mp hreplay
  have hplan := Option.some.inj hplan
  have hiff := records_range_iff blankEnv (seekTo 1) 10 forwarderTwiceScript.guest none
    forwardedTwice plan x rfl hplan hx
  exact ⟨plan, x, hplan, hx, hiff.mpr (.inr (by decide +kernel))⟩

/-- The recording has two calls, so there is no point three. The replay goes from point zero to the
end, and records nothing. -/
theorem seek_past_end :
    ∃ (plan : Plan Nat) (x : Run Nat),
      (seekTo 3).configure blankEnv forwardedTwice {} (some .whole) = .ok plan ∧
      plan.replay 10 forwarderTwiceScript.guest forwardedTwice = some (.ok x) ∧
      x.recordedCalls = [] ∧ ¬ RecordsRange (seekTo 3) forwardedTwice x := by
  have hrun : returnsWith
      (fun plan => returnsWith (fun x => x.recordedCalls.isEmpty)
        (plan.replay 10 forwarderTwiceScript.guest forwardedTwice))
      (some ((seekTo 3).configure blankEnv forwardedTwice {} (some .whole))) = true := by
    decide +kernel
  obtain ⟨plan, hplan, hreplay⟩ := returnsWith_iff.mp hrun
  obtain ⟨x, hx, hempty⟩ := returnsWith_iff.mp hreplay
  refine ⟨plan, x, Option.some.inj hplan, hx, List.isEmpty_iff.mp hempty, fun hrecords => ?_⟩
  exact absurd hrecords.1 (by decide +kernel)

end Cmd
