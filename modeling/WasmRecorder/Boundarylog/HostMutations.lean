import WasmRecorder.Boundarylog.ReplaySoundness
import WasmRecorder.Lib.Grouping

/-!
# Which recorded mutations a replay applies

A recorded mutation is anchored to a crossing: the stub that answers the import call of that
crossing writes it into the host's objects before it hands the call's results back. The stub asks
the host state for the mutations of the crossing it is answering, and nobody asks for the others:
a mutation that is anchored to an exported call, or to a number that no crossing has, is dropped
without an error.

* `takeEffect_iff` — when every recorded mutation takes effect.
* `not_takeEffect_export` — a mutation anchored to an exported call.
-/

namespace Boundarylog

open Fallible Interaction Slice

/-! ### The mutations of one call -/

/-- The crossing whose mutations a stub applies in answer to a request, if it gets that far. -/
def mutatingCrossing (plans : List ImportPlan) (r : Recording) (s : Replayer) (q : Request) :
    Option Crossing :=
  match plans[q.index]? with
  | none => none
  | some plan =>
    if s.err ≠ none then none
    else if unwitnessed r plan then none
    else match matchImportCrossing r s.cursor plan q.args with
      | .error _ => none
      | .ok c => some c

/-- An import call at which the mutations of a crossing were applied: the call and the answer it
got. -/
structure Servicing where
  crossing : Crossing
  request : Request
  answer : Answer

/-- The replayer after a conversation. -/
def replayerAfter (plans : List ImportPlan) (deferred : Bool) (r : Recording) (s : Replayer)
    (tr : List (Request × Answer)) : Replayer :=
  tr.foldl (fun s x => (serviceImport plans deferred r s x.1).1) s

/-- The calls of a conversation at which mutations were applied. -/
def servicings (plans : List ImportPlan) (deferred : Bool) (r : Recording) :
    Replayer → List (Request × Answer) → List Servicing
  | _, [] => []
  | s, x :: tr =>
    (mutatingCrossing plans r s x.1).toList.map (fun c => ⟨c, x.1, x.2⟩) ++
      servicings plans deferred r (serviceImport plans deferred r s x.1).1 tr

/-- The calls at which mutations were applied during a list of exported calls. -/
def callServicings (plans : List ImportPlan) (deferred : Bool) (r : Recording) :
    Replayer → List CallLog → List Servicing
  | _, [] => []
  | s, l :: ls =>
    servicings plans deferred r (Driver.enterCall s) l.imports ++
      callServicings plans deferred r (replayerAfter plans deferred r (Driver.enterCall s) l.imports) ls

/-- The replayer after a list of exported calls. -/
def replayerAfterCalls (plans : List ImportPlan) (deferred : Bool) (r : Recording) (s : Replayer)
    (ls : List CallLog) : Replayer :=
  ls.foldl (fun s l => replayerAfter plans deferred r (Driver.enterCall s) l.imports) s

/-- Every import call of a replay from the start at which mutations were applied, in order. -/
def Progress.servicings {σ : Type} (plans : List ImportPlan) (deferred : Bool) (r : Recording)
    (p : Progress σ) : List Servicing :=
  Boundarylog.servicings plans deferred r {} p.startup ++
    callServicings plans deferred r (replayerAfter plans deferred r {} p.startup) p.calls

variable {plans : List ImportPlan} {deferred : Bool} {r : Recording}

theorem serviceImport_of_mutating {s : Replayer} {q : Request} {c : Crossing}
    (h : mutatingCrossing plans r s q = some c) :
    s.err = none ∧ ∃ plan, plans[q.index]? = some plan ∧
      matchImportCrossing r s.cursor plan q.args = .ok c ∧
      serviceImport plans deferred r s q = answerImport r plan c s q.world := by
  rw [mutatingCrossing] at h
  split at h
  · cases h
  · next plan hplan =>
    split_ifs at h with herr hun
    split at h
    · cases h
    · next c' hc =>
      cases h
      refine ⟨not_not.mp herr, plan, hplan, hc, ?_⟩
      rw [serviceImport, hplan]
      dsimp only
      rw [if_neg herr, if_neg hun, hc]

theorem serviceImport_of_not_mutating {s : Replayer} {q : Request}
    (h : mutatingCrossing plans r s q = none) :
    (serviceImport plans deferred r s q).2.world = q.world ∧
      (serviceImport plans deferred r s q).1.cursor = s.cursor := by
  rw [mutatingCrossing] at h
  rw [serviceImport]
  cases hplan : plans[q.index]? with
  | none => exact ⟨rfl, rfl⟩
  | some plan =>
    rw [hplan] at h
    dsimp only at h ⊢
    split_ifs at h ⊢ with herr hun
    · exact ⟨rfl, rfl⟩
    · exact ⟨rfl, serviceUnwitnessed_cursor _ _ _ _⟩
    · cases he : matchImportCrossing r s.cursor plan q.args with
      | error e => exact ⟨rfl, rfl⟩
      | ok c =>
        rw [he] at h
        cases h

theorem servicings_append (s : Replayer) (tr tr' : List (Request × Answer)) :
    servicings plans deferred r s (tr ++ tr') = servicings plans deferred r s tr ++
      servicings plans deferred r (replayerAfter plans deferred r s tr) tr' := by
  induction tr generalizing s with
  | nil => rfl
  | cons x tr ih =>
    rw [List.cons_append, servicings, servicings, ih, List.append_assoc]
    rfl

theorem callServicings_append (s : Replayer) (ls ls' : List CallLog) :
    callServicings plans deferred r s (ls ++ ls') = callServicings plans deferred r s ls ++
      callServicings plans deferred r (replayerAfterCalls plans deferred r s ls) ls' := by
  induction ls generalizing s with
  | nil => rfl
  | cons l ls ih =>
    rw [List.cons_append, callServicings, callServicings, ih, List.append_assoc]
    rfl

theorem replayerAfter_concat (s : Replayer) (tr : List (Request × Answer))
    (x : Request × Answer) :
    replayerAfter plans deferred r s (tr ++ [x]) =
      (serviceImport plans deferred r (replayerAfter plans deferred r s tr) x.1).1 := by
  rw [replayerAfter, List.foldl_append]
  rfl

theorem replayerAfterCalls_concat (s : Replayer) (ls : List CallLog) (l : CallLog) :
    replayerAfterCalls plans deferred r s (ls ++ [l]) =
      replayerAfter plans deferred r (Driver.enterCall (replayerAfterCalls plans deferred r s ls))
        l.imports := by
  rw [replayerAfterCalls, List.foldl_append]
  rfl

/-! ### A stretch of execution -/

/-- Mutations were applied at the crossings of a list, one call for each, all of them imports, and
every write went through before the results were handed back. -/
structure AppliedAt (r : Recording) (log : List Servicing) (crossings : List Crossing) : Prop where
  crossings : log.map Servicing.crossing = crossings
  kind : ∀ e ∈ log, e.crossing.kind = .import
  world : ∀ e ∈ log,
    applyMutations r.hostState e.crossing.seq e.request.world = (e.answer.world, none)

theorem AppliedAt.append {log log' : List Servicing} {cs cs' : List Crossing}
    (h : AppliedAt r log cs) (h' : AppliedAt r log' cs') : AppliedAt r (log ++ log') (cs ++ cs') where
  crossings := by rw [List.map_append, h.crossings, h'.crossings]
  kind := by
    intro e he
    rcases List.mem_append.mp he with he | he
    · exact h.kind e he
    · exact h'.kind e he
  world := by
    intro e he
    rcases List.mem_append.mp he with he | he
    · exact h.world e he
    · exact h'.world e he

theorem AppliedAt.nil : AppliedAt r [] [] :=
  ⟨rfl, fun _ he => (nomatch he), fun _ he => (nomatch he)⟩

/-- One answer: either the stub had no crossing to answer, or it consumed the one at the cursor
and applied its mutations, or it has stashed an error with that crossing still to come. -/
theorem serviceImport_mutating_cases {s : Replayer} {q : Request} {plan : ImportPlan}
    (hplan : plans[q.index]? = some plan) (hargs : q.args.length = plan.sig.params.length) :
    (mutatingCrossing plans r s q = none ∧
      (serviceImport plans deferred r s q).1.cursor = s.cursor) ∨
    (s.err = none ∧ ∃ c, mutatingCrossing plans r s q = some c ∧
      r.crossings[s.cursor]? = some c ∧
      ((c.kind = .import ∧
          applyMutations r.hostState c.seq q.world =
            ((serviceImport plans deferred r s q).2.world, none) ∧
          (serviceImport plans deferred r s q).1 = s.consume) ∨
        ((serviceImport plans deferred r s q).1.err ≠ none ∧
          (serviceImport plans deferred r s q).1.cursor = s.cursor))) := by
  cases hmut : mutatingCrossing plans r s q with
  | none => exact .inl ⟨rfl, (serviceImport_of_not_mutating hmut).2⟩
  | some c =>
    right
    obtain ⟨herr, plan', hplan', hmatch, hserve⟩ :=
      @serviceImport_of_mutating plans deferred r s q c hmut
    rw [hplan] at hplan'
    cases hplan'
    obtain ⟨hcross, hkind, -, -⟩ := matchImportCrossing_ok hargs hmatch
    refine ⟨herr, c, rfl, hcross, ?_⟩
    rw [hserve]
    rcases answerImport_cases r plan c s q.world with ⟨e, w, hout⟩ | ⟨vs, w, hw, -, hout⟩
    · right
      rw [hout]
      exact ⟨Option.some_ne_none e, rfl⟩
    · left
      rw [hout]
      exact ⟨hkind, hw, rfl⟩

namespace Driver

variable {σ κ : Type} {d : Driver σ κ} {fuel : Nat} {p p' : Progress σ} {c : Crossing}

/-- **A stretch of execution** leaves the replayer that its conversation leads to. If it ends
without error, or with nothing left to consume, it applied the mutations of the crossings it
consumed. -/
theorem run_servicings (hplans : planImports d.guest.compiled d.manifest = .ok d.plans)
    {s s' : Replayer} {x : κ} {tr : List (Request × Answer)} {halt : Halt σ}
    (hrun : d.run fuel r s x = some (s', tr, halt)) :
    s' = replayerAfter d.plans d.deferred r s tr ∧ s.cursor ≤ s'.cursor ∧
      (s'.err = none ∨ s'.cursor = r.crossings.length →
        AppliedAt r (Boundarylog.servicings d.plans d.deferred r s tr)
          (slice r.crossings s.cursor s'.cursor)) := by
  have hdrive : drive d.guest.next (d.serve r) fuel s x = some (s', tr, halt) := hrun
  refine drive_induct
    (fun s' tr => s' = replayerAfter d.plans d.deferred r s tr ∧ s.cursor ≤ s'.cursor ∧
      (s'.err = none ∨ s'.cursor = r.crossings.length →
        AppliedAt r (Boundarylog.servicings d.plans d.deferred r s tr)
          (slice r.crossings s.cursor s'.cursor)))
    (fun q => ∃ plan, d.plans[q.index]? = some plan ∧ q.args.length = plan.sig.params.length)
    ?_ ?_ [] ?_ hdrive
  · intro x q resume hreq
    obtain ⟨-, plan, -, hplan, -, -, hargs⟩ := request_plan hplans hreq
    exact ⟨plan, hplan, hargs⟩
  · rintro h tr q ⟨plan, hplan, hargs⟩ ⟨hafter, hle, happlied⟩
    have hserve : d.serve r h q = serviceImport d.plans d.deferred r h q := rfl
    rw [hserve, replayerAfter_concat, servicings_append, ← hafter]
    refine ⟨rfl, ?_⟩
    have hone : ∀ x : Request × Answer, Boundarylog.servicings d.plans d.deferred r h [x] =
        (mutatingCrossing d.plans r h x.1).toList.map (fun c => ⟨c, x.1, x.2⟩) :=
      fun x => List.append_nil _
    rw [hone]
    rcases @serviceImport_mutating_cases d.plans d.deferred r h q plan hplan hargs with
      ⟨hmut, hcursor⟩ | ⟨herr, c, hmut, hc, ⟨hkind, hworld, hout⟩ | ⟨hstash, hcursor⟩⟩
    · -- no crossing to answer: if an error is stashed now, the stretch was at its end before
      rw [hcursor, hmut]
      refine ⟨hle, fun hend => ?_⟩
      rw [Option.toList_none, List.map_nil, List.append_nil]
      refine happlied (hend.imp_left fun hnone => ?_)
      by_contra hne
      exact serviceImport_doomed h q hne hnone
    · rw [hout, hmut]
      refine ⟨hle.trans (Nat.le_succ _), fun _ => ?_⟩
      rw [Replayer.consume, slice_succ hle hc]
      refine (happlied (.inl herr)).append ⟨rfl, ?_, ?_⟩
      · intro e he
        rw [List.mem_singleton.mp he]
        exact hkind
      · intro e he
        rw [List.mem_singleton.mp he]
        exact hworld
    · -- the crossing is still to come
      rw [hcursor]
      refine ⟨hle, fun hend => ?_⟩
      have hlt := (List.getElem?_eq_some_iff.mp hc).1
      rcases hend with hnone | hfull
      · exact absurd hnone hstash
      · omega
  · refine ⟨rfl, le_refl _, fun _ => ?_⟩
    rw [slice_self]
    exact AppliedAt.nil

/-! ### Whole replays -/

/-- The import crossings of a stretch. -/
def importsOf (cs : List Crossing) : List Crossing := cs.filter fun c => c.kind = .import

theorem importsOf_append (cs cs' : List Crossing) :
    importsOf (cs ++ cs') = importsOf cs ++ importsOf cs' := List.filter_append _ _

theorem importsOf_eq {log : List Servicing} {cs : List Crossing}
    (h : AppliedAt r log cs) : importsOf cs = cs := by
  refine List.filter_eq_self.mpr fun c hc => ?_
  rw [← h.crossings] at hc
  obtain ⟨e, he, rfl⟩ := List.mem_map.mp hc
  exact decide_eq_true (h.kind e he)

/-- Between two calls the replayer is the one the conversations so far lead to, and the mutations
applied so far are those of the import crossings below the cursor. -/
structure Settled (d : Driver σ κ) (r : Recording) (p : Progress σ) : Prop where
  replayer : p.replayer = replayerAfterCalls d.plans d.deferred r
    (replayerAfter d.plans d.deferred r {} p.startup) p.calls
  applied : p.replayer.err = none ∨ p.replayer.cursor = r.crossings.length →
    AppliedAt r (p.servicings d.plans d.deferred r)
      (importsOf (r.crossings.take p.replayer.cursor))

theorem prepare_settled (hplans : planImports d.guest.compiled d.manifest = .ok d.plans)
    (h : d.prepare fuel r = some (.ok p)) : Settled d r p := by
  obtain ⟨-, w, s, tr, res, st, w', -, hrun, -, rfl⟩ := prepare_ok h
  obtain ⟨hafter, -, happlied⟩ := run_servicings hplans hrun
  refine ⟨hafter, fun hend => ?_⟩
  have hlog := happlied hend
  rw [slice_zero] at hlog
  rw [importsOf_eq hlog, Progress.servicings, callServicings, List.append_nil]
  exact hlog

/-- **The step lemma.** -/
theorem callExport_settled (hplans : planImports d.guest.compiled d.manifest = .ok d.plans)
    (hc : r.crossings[c.seq]? = some c) (hkind : c.kind = .export) (hp : Settled d r p)
    (h : d.callExport fuel r p c = some (.ok p')) : Settled d r p' := by
  obtain ⟨hcursor, -, t, sig, args, s, tr, got, st, -, -, -, hrun, herr, -, rfl⟩ := callExport_ok h
  have herr₀ : (enterCall p.replayer).err = none := run_err hrun herr
  obtain ⟨hafter, hle, happlied⟩ := run_servicings hplans hrun
  have hle' : c.seq + 1 ≤ s.cursor := hcursor ▸ hle
  constructor
  · dsimp only
    rw [replayerAfterCalls_concat, ← hp.replayer]
    exact hafter
  · -- the crossings below the new cursor: those below the old one, the call's own, which is no
    -- import, and those the call consumed
    intro _
    have hbefore := hp.applied (.inl herr₀)
    have hcall := happlied (.inl herr)
    have hsplit : importsOf (r.crossings.take s.cursor) =
        importsOf (r.crossings.take p.replayer.cursor) ++
          slice r.crossings (enterCall p.replayer).cursor s.cursor := by
      have hcons : r.crossings.take s.cursor =
          r.crossings.take c.seq ++ c :: slice r.crossings (c.seq + 1) s.cursor := by
        rw [← slice_cons hle' hc, ← slice_zero, ← slice_zero, slice_append (Nat.zero_le _)]
        omega
      have hown : importsOf (c :: slice r.crossings (c.seq + 1) s.cursor) =
          importsOf (slice r.crossings (c.seq + 1) s.cursor) :=
        List.filter_cons_of_neg (by rw [hkind]; decide)
      have hentered : (enterCall p.replayer).cursor = c.seq + 1 := by rw [enterCall, hcursor]
      rw [hentered] at hcall ⊢
      rw [hcons, importsOf_append, hown, importsOf_eq hcall, hcursor]
    dsimp only
    rw [hsplit, Progress.servicings, callServicings_append, ← List.append_assoc, ← hp.replayer]
    refine hbefore.append ?_
    rw [callServicings, callServicings, List.append_nil]
    exact hcall

/-- **The run lemma.** -/
theorem driveCalls_settled (hplans : planImports d.guest.compiled d.manifest = .ok d.plans)
    {cs : List Crossing} (hcs : ∀ c ∈ cs, r.crossings[c.seq]? = some c ∧ c.kind = .export)
    {point : Nat} (hp : Settled d r p) (h : d.driveCalls fuel r point p cs = some (.ok p')) :
    Settled d r p' := by
  induction cs generalizing point p with
  | nil => cases h; exact hp
  | cons c cs ih =>
    obtain ⟨p₁, hcall, hrest⟩ := driveCalls_cons_ok h
    obtain ⟨p₂, hexport, hpass⟩ := driveCall_ok hcall
    obtain ⟨hc, hkind⟩ := hcs c List.mem_cons_self
    have hp₂ := callExport_settled hplans hc hkind hp hexport
    have hp₁ : Settled d r p₁ := by
      rw [(passPoint_ok hpass).1]
      exact ⟨hp₂.replayer, hp₂.applied⟩
    exact ih (fun c' hc' => hcs c' (List.mem_cons_of_mem _ hc')) hp₁ hrest

end Driver

variable {σ κ : Type} {fuel : Nat} {guest : Guest σ κ} {opts : Options σ} {p : Progress σ}

/-- Every crossing carries its position, as in every recording that is loaded or streamed. -/
def Recording.Numbered (r : Recording) : Prop :=
  ∀ (i : Nat) (c : Crossing), r.crossings[i]? = some c → c.seq = i

/-- **A whole replay that returns no error** applied the mutations of every import crossing, in
order. -/
theorem crossings_servicings (hseq : r.Numbered)
    (hrange : resolveRange opts r.topLevelExports.length = .ok (0, r.topLevelExports.length))
    (hplans : planImports guest.compiled opts.manifest = .ok plans)
    (h : replay fuel guest opts r = some (.ok p)) :
    AppliedAt r (p.servicings plans false r) (Driver.importsOf r.crossings) := by
  obtain ⟨l, p₁, hl, hdrive, hend⟩ := replay_ok h
  obtain ⟨p₀, p₀', hpre, hprep, hrange', hseek, hpass⟩ := launch_ok hl
  rw [hrange, Except.ok.injEq, Prod.mk.injEq] at hrange'
  rw [← hrange'.1, ← hrange'.2, List.drop_zero, Nat.sub_zero, List.take_length] at hdrive
  rw [← hrange'.1, seek, if_pos rfl] at hseek
  cases hseek
  rw [← hrange'.1, ← hrange'.2] at hend
  obtain ⟨hguest, hmanifest, hdeferred, -, hplans', -, -⟩ := precheck_ok hpre
  have hsame : l.driver.plans = plans := by
    rw [hguest, hmanifest, hplans, Except.ok.injEq] at hplans'
    exact hplans'.symm
  have hp₀ := Driver.prepare_settled hplans' hprep
  have htop : ∀ c ∈ r.topLevelExports, r.crossings[c.seq]? = some c ∧ c.kind = .export := by
    intro c hc
    obtain ⟨hmem, hkind⟩ := List.mem_filter.mp hc
    obtain ⟨i, hi⟩ := List.mem_iff_getElem?.mp hmem
    rw [Crossing.isTopLevelExport, decide_eq_true_eq] at hkind
    rw [hseq i c hi]
    exact ⟨hi, hkind.1⟩
  obtain ⟨hpoint, -⟩ := Driver.passPoint_ok hpass
  have hstart : l.driver.Settled r l.progress := by
    rw [hpoint]
    exact ⟨hp₀.replayer, hp₀.applied⟩
  have hsettled := Driver.driveCalls_settled hplans' htop hstart hdrive
  obtain ⟨rfl, hfull⟩ := endReplay_ok hend
  have hcursor := hfull rfl rfl
  have hlog := hsettled.applied (.inr hcursor)
  rw [hcursor, List.take_length, hsame, hdeferred] at hlog
  exact hlog

/-- Every recorded mutation takes effect. The calls of the log answer import crossings of the
recording, the mutations of the crossing are written in the order of the list before the answer is
handed back, and over the whole log every listed mutation is applied exactly once. -/
structure TakeEffect (r : Recording) (h : HostState) (log : List Servicing) : Prop where
  crossing : ∀ e ∈ log, e.crossing ∈ r.crossings ∧ e.crossing.kind = .import
  applied : ∀ e ∈ log, e.request.world.applyAll HostWrite.apply
    ((h.mutationsFor e.crossing.seq).flatMap HostMutation.writes) = (e.answer.world, none)
  once : (log.flatMap fun e => h.mutationsFor e.crossing.seq).Perm h.mutationList

theorem seq_nodup (hseq : r.Numbered) : (r.crossings.map fun c => (c.seq : Int)).Nodup := by
  rw [List.Nodup, List.pairwise_map, List.pairwise_iff_getElem]
  intro i j hi hj hlt heq
  rw [hseq i _ (List.getElem?_eq_getElem hi), hseq j _ (List.getElem?_eq_getElem hj)] at heq
  omega

/-- **When every recorded mutation takes effect.** In a replay of a whole recording that returns no
error, exactly when every mutation is anchored to an import crossing of the recording. The others
are dropped. -/
theorem takeEffect_iff {h : HostState} (hseq : r.Numbered) (hstate : r.hostState = some h)
    (hrange : resolveRange opts r.topLevelExports.length = .ok (0, r.topLevelExports.length))
    (hplans : planImports guest.compiled opts.manifest = .ok plans)
    (hrun : replay fuel guest opts r = some (.ok p)) :
    TakeEffect r h (p.servicings plans false r) ↔
      ∀ mu ∈ h.mutationList, ∃ c ∈ r.crossings, c.kind = .import ∧ mu.afterCrossing = c.seq := by
  have hlog := crossings_servicings hseq hrange hplans hrun
  generalize p.servicings plans false r = log at hlog
  have hmem : ∀ c, (∃ e ∈ log, e.crossing = c) ↔ c ∈ r.crossings ∧ c.kind = .import := by
    intro c
    rw [← List.mem_map, hlog.crossings, Driver.importsOf, List.mem_filter, decide_eq_true_eq]
  constructor
  · intro heffect mu hmu
    obtain ⟨e, he, hfor⟩ := List.mem_flatMap.mp (heffect.once.mem_iff.mpr hmu)
    obtain ⟨hc, hkind⟩ := (hmem e.crossing).mp ⟨e, he, rfl⟩
    exact ⟨e.crossing, hc, hkind, of_decide_eq_true (List.mem_filter.mp hfor).2⟩
  · intro hanchored
    refine ⟨fun e he => (hmem e.crossing).mp ⟨e, he, rfl⟩, fun e he => ?_, ?_⟩
    · have hworld := hlog.world e he
      rw [applyMutations, mutationWrites, hstate] at hworld
      exact hworld
    · -- the log visits the anchors once each, so it cuts the list into the groups of its anchors
      have hkeys : (log.map fun e => (e.crossing.seq : Int)) =
          (Driver.importsOf r.crossings).map fun c => (c.seq : Int) := by
        rw [← hlog.crossings, List.map_map]
        rfl
      have hnodup : (log.map fun e => (e.crossing.seq : Int)).Nodup := by
        rw [hkeys]
        exact (seq_nodup hseq).sublist (List.filter_sublist.map _)
      have hgroups := Grouping.flatMap_filter_perm (f := HostMutation.afterCrossing)
        (l := h.mutationList) hnodup ?_
      · rw [List.flatMap_map] at hgroups
        exact hgroups
      · intro mu hmu
        obtain ⟨c, hc, hkind, hanchor⟩ := hanchored mu hmu
        obtain ⟨e, he, rfl⟩ := (hmem c).mpr ⟨hc, hkind⟩
        exact List.mem_map.mpr ⟨e, he, hanchor.symm⟩

/-! ### The forwarder with a host global

The host of the forwarder keeps an `i32` in the mutable global `env.h`, and sets it to `5` while
it services the call of the module, crossing `1`. -/

def settingState (anchor : Int) : HostState where
  version := hostStateVersion
  initial := { globals := some [⟨"env".toList, "h".toList, "i32".toList, true, "0".toList⟩] }
  mutations := some [⟨anchor, none, some [⟨"env".toList, "h".toList, "i32".toList, "5".toList⟩]⟩]

def settingRecording (anchor : Int) : Recording :=
  { forwarderRecording with hostState := some (settingState anchor) }

def settingWorld : World := [("env".toList, ⟨[], [("h".toList, ⟨.i32, true, 0⟩)]⟩)]

def settingScript : Script forwarder where
  world := settingWorld
  calls := [⟨[⟨⟨0, [], settingWorld⟩, ⟨_, rfl, rfl⟩⟩], [7], settingWorld⟩]

def settingPlans : List ImportPlan := [⟨0, "env".toList, "g".toList, ⟨[], [.i32]⟩⟩]

theorem settingRecording_numbered (anchor : Int) : (settingRecording anchor).Numbered := by
  intro i c hc
  match i, hc with
  | 0, hc => cases hc; rfl
  | 1, hc => cases hc; rfl

theorem takeEffect_iff_setting : (settingState 1).validate = .ok () ∧
    planImports forwarder none = .ok settingPlans ∧
    ∃ p, replay 10 settingScript.guest {} (settingRecording 1) = some (.ok p) ∧
      TakeEffect (settingRecording 1) (settingState 1)
        (p.servicings settingPlans false (settingRecording 1)) := by
  have hrun : returnsWith (fun _ => true)
      (replay 10 settingScript.guest {} (settingRecording 1)) = true := by
    decide +kernel
  obtain ⟨p, hp, -⟩ := returnsWith_iff.mp hrun
  refine ⟨by decide +kernel, rfl, p, hp, ?_⟩
  refine (takeEffect_iff (settingRecording_numbered 1) rfl rfl rfl hp).mpr fun mu hmu => ?_
  rw [List.mem_singleton.mp hmu]
  exact ⟨_, List.mem_cons_of_mem _ List.mem_cons_self, rfl, rfl⟩

/-- A mutation anchored to the exported call: the host state is valid and the replay returns no
error, but the replay never writes it. -/
theorem not_takeEffect_export : (settingState 0).validate = .ok () ∧
    planImports forwarder none = .ok settingPlans ∧
    ∃ p, replay 10 settingScript.guest {} (settingRecording 0) = some (.ok p) ∧
      ¬ TakeEffect (settingRecording 0) (settingState 0)
        (p.servicings settingPlans false (settingRecording 0)) := by
  have hrun : returnsWith
      (fun p => ((p.servicings settingPlans false (settingRecording 0)).flatMap fun e =>
        (settingState 0).mutationsFor e.crossing.seq).isEmpty)
      (replay 10 settingScript.guest {} (settingRecording 0)) = true := by
    decide +kernel
  obtain ⟨p, hp, hempty⟩ := returnsWith_iff.mp hrun
  refine ⟨by decide +kernel, rfl, p, hp, fun heffect => ?_⟩
  have honce := heffect.once
  rw [List.isEmpty_iff.mp hempty] at honce
  exact absurd honce.length_eq (by decide)

end Boundarylog
