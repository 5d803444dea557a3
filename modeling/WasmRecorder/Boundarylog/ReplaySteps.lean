import WasmRecorder.Boundarylog.Replay

/-!
# What the replay driver can do

Inversion lemmas for the functions of the driver. Every proof about a replay goes through
these and not through the definitions.

* `Driver.callExport_ok`, `Driver.driveCall_ok`, `Driver.driveCalls_append_ok` — a call that
  succeeds, a round that succeeds, and the loop over a concatenation.
* `launch_ok`, `replay_ok` — a replay that returns no error.
-/

namespace Boundarylog

open Fallible

/-! ### Import calls -/

/-- The replayer after it has consumed a crossing. -/
def Replayer.consume (s : Replayer) : Replayer :=
  { s with
    cursor := s.cursor + 1
    result := { s.result with importCalls := s.result.importCalls + 1 } }

/-- An import call is the recorded one, and the answer is the recorded answer. -/
structure Matches (r : Recording) (plan : ImportPlan) (cursor : Nat) (q : Request) (c : Crossing)
    (a : Answer) : Prop where
  crossing : r.crossings[cursor]? = some c
  kind : c.kind = .import
  index : c.index = plan.index
  args : ∃ vs, decodeTuple "argument".toList c.args plan.sig.params = .ok vs ∧
    vs.map Value.bits = q.args
  results : ∃ vs, decodeTuple "result".toList c.results plan.sig.results = .ok vs ∧
    vs.map Value.bits = a.results
  world : applyMutations r.hostState c.seq q.world = (a.world, none)

theorem map_bits_zipWith {types : List ScalarType} {raw : List UInt64}
    (hlen : raw.length = types.length) :
    (types.zipWith fromWazero raw).map Value.bits = raw := by
  induction types generalizing raw with
  | nil =>
    cases raw with
    | nil => rfl
    | cons x xs => cases hlen
  | cons t ts ih =>
    cases raw with
    | nil => cases hlen
    | cons x xs =>
      rw [List.zipWith_cons_cons, List.map_cons, ih (Nat.succ.inj hlen)]
      rfl

/-- A recorded tuple and a tuple of words at the same types that show no mismatch have the
same bits. -/
theorem map_bits_of_no_mismatch {types : List ScalarType} {want : List Value} {raw : List UInt64}
    (hwant : want.length = types.length) (hraw : raw.length = types.length)
    (hno : firstMismatch want (types.zipWith fromWazero raw) = none) :
    want.map Value.bits = raw := by
  have hlen : want.length = (types.zipWith fromWazero raw).length := by
    rw [List.length_zipWith, hwant, hraw, min_self]
  rw [(firstMismatch_eq_none hlen).mp hno, map_bits_zipWith hraw]

theorem matchImportCrossing_ok {r : Recording} {cursor : Nat} {plan : ImportPlan}
    {args : List UInt64} {c : Crossing} (hargs : args.length = plan.sig.params.length)
    (h : matchImportCrossing r cursor plan args = .ok c) :
    r.crossings[cursor]? = some c ∧ c.kind = .import ∧ c.index = plan.index ∧
      ∃ vs, decodeTuple "argument".toList c.args plan.sig.params = .ok vs ∧
        vs.map Value.bits = args := by
  rw [matchImportCrossing] at h
  split at h
  · cases h
  · next c' hc =>
    split_ifs at h with hkind hindex
    rw [ne_eq, not_not] at hkind hindex
    split at h
    · cases h
    · next want hwant =>
      split at h
      · cases h
      · next hno =>
        cases h
        exact ⟨hc, hkind, hindex, want, hwant,
          map_bits_of_no_mismatch (decodeTuple_length hwant).2 hargs hno⟩

theorem serviceUnwitnessed_err (deferred : Bool) (r : Recording) (plan : ImportPlan)
    (s : Replayer) : (serviceUnwitnessedValuelessImport deferred r plan s).err = s.err := by
  rw [serviceUnwitnessedValuelessImport]
  dsimp only
  split_ifs
  · split <;> rfl
  · rfl

theorem serviceUnwitnessed_cursor (deferred : Bool) (r : Recording) (plan : ImportPlan)
    (s : Replayer) : (serviceUnwitnessedValuelessImport deferred r plan s).cursor = s.cursor := by
  rw [serviceUnwitnessedValuelessImport]
  dsimp only
  split_ifs
  · split <;> rfl
  · rfl

theorem serviceUnwitnessed_result (deferred : Bool) (r : Recording) (plan : ImportPlan)
    (s : Replayer) : (serviceUnwitnessedValuelessImport deferred r plan s).result =
      { s.result with uncheckedImportCalls := s.result.uncheckedImportCalls + 1 } := by
  rw [serviceUnwitnessedValuelessImport]
  dsimp only
  split_ifs
  · split <;> rfl
  · rfl

theorem answerImport_cases (r : Recording) (plan : ImportPlan) (c : Crossing) (s : Replayer)
    (w : World) :
    (∃ e w', answerImport r plan c s w = ({ s with err := some e }, zeroStack plan w')) ∨
    (∃ vs w', applyMutations r.hostState c.seq w = (w', none) ∧
      decodeTuple "result".toList c.results plan.sig.results = .ok vs ∧
      answerImport r plan c s w = (s.consume, ⟨vs.map Value.bits, w'⟩)) := by
  rw [answerImport]
  split
  · exact .inl ⟨_, _, rfl⟩
  · next w' hw =>
    split_ifs
    · exact .inl ⟨_, _, rfl⟩
    · split
      · exact .inl ⟨_, _, rfl⟩
      · next vs hvs => exact .inr ⟨vs, w', hw, hvs, rfl⟩

/-- **Everything a stub can do** while no error is stashed. -/
theorem serviceImport_cases {plans : List ImportPlan} (deferred : Bool) (r : Recording)
    {s : Replayer} {q : Request} {plan : ImportPlan} (hplan : plans[q.index]? = some plan)
    (hargs : q.args.length = plan.sig.params.length) (herr : s.err = none) :
    (unwitnessed r plan = true ∧
      serviceImport plans deferred r s q =
        (serviceUnwitnessedValuelessImport deferred r plan s, ⟨[], q.world⟩)) ∨
    (∃ e w, serviceImport plans deferred r s q = ({ s with err := some e }, zeroStack plan w)) ∨
    (unwitnessed r plan = false ∧
      ∃ c a, Matches r plan s.cursor q c a ∧
        serviceImport plans deferred r s q = (s.consume, a)) := by
  have herr' : ¬ s.err ≠ none := by rw [herr]; exact fun h => h rfl
  rw [serviceImport, hplan]
  dsimp only
  rw [if_neg herr']
  split_ifs with hun
  · exact .inl ⟨hun, rfl⟩
  · right
    rw [Bool.not_eq_true] at hun
    split
    · exact .inl ⟨_, _, rfl⟩
    · next c hc =>
      obtain ⟨hcross, hkind, hindex, hvs⟩ := matchImportCrossing_ok hargs hc
      rcases answerImport_cases r plan c s q.world with ⟨e, w, hout⟩ | ⟨vs, w, hw, hres, hout⟩
      · exact .inl ⟨e, w, hout⟩
      · exact .inr ⟨hun, c, _, ⟨hcross, hkind, hindex, hvs, ⟨vs, hres, rfl⟩, hw⟩, hout⟩

theorem serviceImport_err {plans : List ImportPlan} {deferred : Bool} {r : Recording}
    {s : Replayer} {q : Request} (herr : s.err ≠ none) :
    (serviceImport plans deferred r s q).1 = s := by
  rw [serviceImport]
  split
  · rfl
  · rw [if_pos herr]

theorem serviceImport_doomed {plans : List ImportPlan} {deferred : Bool} {r : Recording}
    (s : Replayer) (q : Request) (herr : s.err ≠ none) :
    (serviceImport plans deferred r s q).1.err ≠ none := by
  rw [serviceImport_err herr]
  exact herr

/-! ### Exported calls -/

namespace Driver

variable {σ κ : Type} {d : Driver σ κ} {fuel : Nat} {r : Recording} {p p' : Progress σ}
  {c : Crossing}

theorem request_plan (hplans : planImports d.guest.compiled d.manifest = .ok d.plans) {x : κ}
    {q : Request} {resume : Answer → κ} (hreq : d.guest.next x = .request q resume) :
    ∃ f plan, d.guest.compiled.importedFunctions[q.index]? = some f ∧
      d.plans[q.index]? = some plan ∧ plan.index.toNat = q.index ∧
      signatureOf f.type = some plan.sig ∧ q.args.length = plan.sig.params.length := by
  obtain ⟨f, hf, hlen⟩ := d.guest.request_typed x q resume hreq
  obtain ⟨plan, hplan, hindex, hsig⟩ := planImports_getElem? hplans hf
  exact ⟨f, plan, hf, hplan, hindex, hsig, hlen.trans (signatureOf_length hsig).1.symm⟩

theorem checkResults_ok {sig : Signature} {got : List UInt64} (h : checkResults c sig got = .ok ()) :
    ∃ want, decodeTuple "result".toList c.results sig.results = .ok want ∧
      want.map Value.bits = got := by
  rw [checkResults] at h
  split at h
  · cases h
  · next want hwant =>
    split_ifs at h with hlen
    rw [ne_eq, not_not] at hlen
    have hwantLen := (decodeTuple_length hwant).2
    split at h
    · cases h
    · next hno => exact ⟨want, hwant, map_bits_of_no_mismatch hwantLen (hlen.trans hwantLen) hno⟩

theorem callExport_ok (h : d.callExport fuel r p c = some (.ok p')) :
    p.replayer.cursor = c.seq ∧ c.seq < r.crossings.length ∧
    ∃ t sig args s tr got st, d.guest.compiled.exportedFunctions.lookup c.name = some t ∧
      signatureOf t = some sig ∧ decodeTuple "argument".toList c.args sig.params = .ok args ∧
      d.run fuel r (enterCall p.replayer) (d.guest.call p.state c.name (args.map Value.bits)) =
        some (s, tr, .returned got st) ∧
      s.err = none ∧ checkResults c sig got = .ok () ∧
      p' = { p with
        replayer := s, state := st
        calls := p.calls ++ [⟨c, args.map Value.bits, tr, got, s.cursor⟩] } := by
  rw [callExport] at h
  split_ifs at h with hcond
  · cases h
  push Not at hcond
  refine ⟨hcond.2, hcond.2 ▸ hcond.1, ?_⟩
  split at h
  · cases h
  · next t ht =>
    split at h
    · cases h
    · next sig hsig =>
      split at h
      · cases h
      · next args hargs =>
        dsimp only at h
        split at h
        · cases h
        · next s tr halt hrun =>
          rw [Option.some.injEq, finishCall.eq_def] at h
          split at h
          · cases h
          · next herr =>
            split at h
            · cases h
            · next got st =>
              split at h
              · cases h
              · next hres =>
                cases h
                exact ⟨t, sig, args, s, tr, got, st, ht, hsig, hargs, hrun, herr, hres, rfl⟩

theorem callExport_eq {t : FunctionType} {sig : Signature} {args : List Value} {s : Replayer}
    {tr : List (Request × Answer)} {halt : Halt σ} (hcursor : p.replayer.cursor = c.seq)
    (hlt : c.seq < r.crossings.length)
    (ht : d.guest.compiled.exportedFunctions.lookup c.name = some t)
    (hsig : signatureOf t = some sig)
    (hargs : decodeTuple "argument".toList c.args sig.params = .ok args)
    (hrun : d.run fuel r (enterCall p.replayer)
      (d.guest.call p.state c.name (args.map Value.bits)) = some (s, tr, halt)) :
    d.callExport fuel r p c = some (finishCall c sig (args.map Value.bits) p s tr halt) := by
  have hcond : ¬ (r.crossings.length ≤ p.replayer.cursor ∨ p.replayer.cursor ≠ c.seq) := by
    push Not
    exact ⟨hcursor ▸ hlt, hcursor⟩
  rw [callExport, if_neg hcond]
  simp only [ht, hsig, hargs, hrun]

theorem passPoint_ok {point : Nat} (h : d.passPoint point p = .ok p') :
    p' = { p with points := p.points ++ [(point, p.state)] } ∧
      ∀ hook, d.hook = some hook → hook point p.state = .ok () := by
  rw [passPoint] at h
  split at h
  · next hnone =>
    cases h
    refine ⟨rfl, fun hook hhook => ?_⟩
    rw [hnone] at hhook
    cases hhook
  · next hk hsome =>
    split at h
    · cases h
    · next hok =>
      cases h
      refine ⟨rfl, fun hook hhook => ?_⟩
      rw [hsome] at hhook
      cases hhook
      exact hok

theorem passPoint_of_hook {point : Nat}
    (h : ∀ hook, d.hook = some hook → hook point p.state = .ok ()) :
    d.passPoint point p = .ok { p with points := p.points ++ [(point, p.state)] } := by
  rw [passPoint]
  split
  · rfl
  · next hk hsome => rw [h hk hsome]

theorem driveCall_ok {point : Nat} (h : d.driveCall fuel r point p c = some (.ok p')) :
    ∃ p₁, d.callExport fuel r p c = some (.ok p₁) ∧ d.passPoint (point + 1) p₁ = .ok p' := by
  rw [driveCall] at h
  split at h
  · cases h
  · cases h
  · next p₁ hcall => exact ⟨p₁, hcall, Option.some.inj h⟩

theorem driveCalls_cons_ok {point : Nat} {cs : List Crossing}
    (h : d.driveCalls fuel r point p (c :: cs) = some (.ok p')) :
    ∃ p₁, d.driveCall fuel r point p c = some (.ok p₁) ∧
      d.driveCalls fuel r (point + 1) p₁ cs = some (.ok p') := by
  rw [driveCalls] at h
  split at h
  · cases h
  · cases h
  · next p₁ hcall => exact ⟨p₁, hcall, h⟩

theorem driveCalls_cons {point : Nat} {p₁ : Progress σ} (cs : List Crossing)
    (h : d.driveCall fuel r point p c = some (.ok p₁)) :
    d.driveCalls fuel r point p (c :: cs) = d.driveCalls fuel r (point + 1) p₁ cs := by
  rw [driveCalls, h]

theorem driveCalls_append_ok {point : Nat} {cs cs' : List Crossing}
    (h : d.driveCalls fuel r point p (cs ++ cs') = some (.ok p')) :
    ∃ p₁, d.driveCalls fuel r point p cs = some (.ok p₁) ∧
      d.driveCalls fuel r (point + cs.length) p₁ cs' = some (.ok p') := by
  induction cs generalizing point p with
  | nil => exact ⟨p, rfl, h⟩
  | cons c cs ih =>
    obtain ⟨p₂, hcall, hrest⟩ := driveCalls_cons_ok h
    obtain ⟨p₁, hfirst, hsecond⟩ := ih hrest
    refine ⟨p₁, (driveCalls_cons cs hcall).trans hfirst, ?_⟩
    rw [List.length_cons, Nat.add_right_comm, ← Nat.add_assoc] at *
    exact hsecond

theorem prepare_ok (h : d.prepare fuel r = some (.ok p)) :
    undescribedImportedMemory d.guest.compiled r.hostState = none ∧
    ∃ w s tr res st w', instantiateHostModules d.plans r.hostState = .ok w ∧
      d.run fuel r {} (d.guest.instantiate w) = some (s, tr, .returned res st) ∧
      applyInitialMemory r.hostState st.world = (w', none) ∧
      p = { replayer := s, state := { st with world := w' }, startup := tr } := by
  rw [prepare] at h
  split at h
  · cases h
  · next hmem =>
    refine ⟨hmem, ?_⟩
    split at h
    · cases h
    · next w hw =>
      split at h
      · cases h
      · cases h
      · next s tr res st hrun =>
        rw [Option.some.injEq, settle] at h
        split at h
        · cases h
        · next w' hinit =>
          cases h
          exact ⟨w, s, tr, res, st, w', hw, hrun, hinit, rfl⟩

end Driver

/-! ### Whole replays -/

variable {σ κ : Type} {fuel : Nat} {guest : Guest σ κ} {opts : Options σ} {r : Recording}

theorem precheck_ok {d : Driver σ κ} (h : precheck guest opts r = .ok d) :
    d.guest = guest ∧ d.manifest = opts.manifest ∧ d.deferred = false ∧
      d.hook = opts.atQuiescentPoint ∧ planImports d.guest.compiled d.manifest = .ok d.plans ∧
      checkExports d r.topLevelExports = .ok () ∧ r.nestedExports = [] := by
  rw [precheck] at h
  split at h
  · cases h
  · next plans hplans =>
    obtain ⟨⟨⟩, hexports, h⟩ := bind_eq_ok.mp h
    obtain ⟨⟨⟩, hnested, h⟩ := bind_eq_ok.mp h
    cases h
    refine ⟨rfl, rfl, rfl, rfl, hplans, hexports, ?_⟩
    rw [refuseNestedExports] at hnested
    split_ifs at hnested with hnil
    exact hnil

theorem launch_ok {l : Launch σ κ} (h : launch fuel guest opts r = some (.ok l)) :
    ∃ p p₁, precheck guest opts r = .ok l.driver ∧ l.driver.prepare fuel r = some (.ok p) ∧
      resolveRange opts r.topLevelExports.length = .ok (l.start, l.stop) ∧
      seek opts r l.start p = .ok p₁ ∧ l.driver.passPoint l.start p₁ = .ok l.progress := by
  rw [launch] at h
  split at h
  · cases h
  · next d hpre =>
    split at h
    · cases h
    · cases h
    · next p hprep =>
      rw [Option.some.injEq] at h
      obtain ⟨⟨start, stop⟩, hrange, h⟩ := bind_eq_ok.mp h
      obtain ⟨p₁, hseek, h⟩ := bind_eq_ok.mp h
      obtain ⟨p₂, hpass, h⟩ := bind_eq_ok.mp h
      cases h
      exact ⟨p, p₁, hpre, hprep, hrange, hseek, hpass⟩

theorem launch_eq {d : Driver σ κ} {start stop : Nat} {p p₁ p₂ : Progress σ}
    (hpre : precheck guest opts r = .ok d) (hprep : d.prepare fuel r = some (.ok p))
    (hrange : resolveRange opts r.topLevelExports.length = .ok (start, stop))
    (hseek : seek opts r start p = .ok p₁) (hpass : d.passPoint start p₁ = .ok p₂) :
    launch fuel guest opts r = some (.ok ⟨d, start, stop, p₂⟩) := by
  rw [launch, hpre]
  dsimp only
  rw [hprep]
  dsimp only
  rw [launchAt, hrange]
  simp only [bind, Except.bind, hseek, hpass, pure, Except.pure]

theorem replay_ok {p : Progress σ} (h : replay fuel guest opts r = some (.ok p)) :
    ∃ l p₁, launch fuel guest opts r = some (.ok l) ∧
      l.driver.driveCalls fuel r l.start l.progress
        ((r.topLevelExports.drop l.start).take (l.stop - l.start)) = some (.ok p₁) ∧
      endReplay r l.start l.stop p₁ = .ok p := by
  rw [replay] at h
  split at h
  · cases h
  · cases h
  · next l hl =>
    split at h
    · cases h
    · cases h
    · next p₁ hdrive => exact ⟨l, p₁, hl, hdrive, Option.some.inj h⟩

theorem endReplay_ok {start stop : Nat} {p p' : Progress σ}
    (h : endReplay r start stop p = .ok p') :
    p' = { p with replayer := { p.replayer with
        result := { p.replayer.result with fromPoint := start, toPoint := stop } } } ∧
      (stop = r.topLevelExports.length → start = 0 → p.replayer.cursor = r.crossings.length) := by
  rw [endReplay] at h
  split_ifs at h with hpart hcursor
  · cases h
    exact ⟨rfl, fun hs hz => absurd hpart (by rw [hs, hz]; simp)⟩
  · cases h
    rw [ne_eq, not_not] at hcursor
    exact ⟨rfl, fun _ _ => hcursor⟩

theorem resolveRange_ok {n start stop : Nat} (h : resolveRange opts n = .ok (start, stop)) :
    start ≤ stop ∧ stop ≤ n := by
  rw [resolveRange] at h
  generalize (if opts.toPoint = 0 then (n : Int) else opts.toPoint) = last at h
  split_ifs at h with h₁ h₂ h₃
  obtain ⟨rfl, rfl⟩ := Prod.mk.inj (Except.ok.inj h)
  omega

theorem resolveRange_points {n start stop : Nat} (h : resolveRange opts n = .ok (start, stop)) :
    (start : Int) = opts.fromPoint ∧
      (stop : Int) = if opts.toPoint = 0 then (n : Int) else opts.toPoint := by
  rw [resolveRange] at h
  generalize (if opts.toPoint = 0 then (n : Int) else opts.toPoint) = last at h ⊢
  split_ifs at h with h₁ h₂ h₃
  obtain ⟨rfl, rfl⟩ := Prod.mk.inj (Except.ok.inj h)
  omega

theorem resolveRange_whole (hfrom : opts.fromPoint = 0) (hto : opts.toPoint = 0) (n : Nat) :
    resolveRange opts n = .ok (0, n) := by
  have hn : ¬ (n : Int) < 0 := by omega
  simp [resolveRange, hfrom, hto, hn]

theorem launch_whole_iff (hfrom : opts.fromPoint = 0) (hto : opts.toPoint = 0)
    {l : Launch σ κ} :
    launch fuel guest opts r = some (.ok l) ↔
      ∃ d p₀, precheck guest opts r = .ok d ∧ d.prepare fuel r = some (.ok p₀) ∧
        (∀ hook, d.hook = some hook → hook 0 p₀.state = .ok ()) ∧
        l = ⟨d, 0, r.topLevelExports.length,
          { p₀ with points := p₀.points ++ [(0, p₀.state)] }⟩ := by
  constructor
  · intro h
    obtain ⟨p₀, p₀', hpre, hprep, hrange, hseek, hpass⟩ := launch_ok h
    rw [resolveRange_whole hfrom hto, Except.ok.injEq, Prod.mk.injEq] at hrange
    obtain ⟨hstart, hstop⟩ := hrange
    rw [← hstart, seek, if_pos rfl] at hseek
    cases hseek
    rw [← hstart] at hpass
    obtain ⟨hpoint, hhook⟩ := Driver.passPoint_ok hpass
    refine ⟨l.driver, p₀, hpre, hprep, hhook, ?_⟩
    rw [← hpoint, hstart, hstop]
  · rintro ⟨d, p₀, hpre, hprep, hhook, rfl⟩
    exact launch_eq hpre hprep (resolveRange_whole hfrom hto _) (if_pos rfl)
      (Driver.passPoint_of_hook hhook)

/-- **A whole replay**: it is prepared, passes point `0`, drives every exported call and
consumes every crossing. -/
theorem replay_whole_iff (hfrom : opts.fromPoint = 0) (hto : opts.toPoint = 0)
    {p : Progress σ} :
    replay fuel guest opts r = some (.ok p) ↔
      ∃ d p₀ p₁, precheck guest opts r = .ok d ∧ d.prepare fuel r = some (.ok p₀) ∧
        (∀ hook, d.hook = some hook → hook 0 p₀.state = .ok ()) ∧
        d.driveCalls fuel r 0 { p₀ with points := p₀.points ++ [(0, p₀.state)] }
          r.topLevelExports = some (.ok p₁) ∧
        p₁.replayer.cursor = r.crossings.length ∧
        p = { p₁ with replayer := { p₁.replayer with result := { p₁.replayer.result with
          fromPoint := 0, toPoint := r.topLevelExports.length } } } := by
  constructor
  · intro h
    obtain ⟨l, p₁, hlaunch, hdrive, hend⟩ := replay_ok h
    obtain ⟨d, p₀, hpre, hprep, hhook, rfl⟩ := (launch_whole_iff hfrom hto).mp hlaunch
    dsimp only at hdrive hend
    rw [List.drop_zero, Nat.sub_zero, List.take_length] at hdrive
    obtain ⟨rfl, hcursor⟩ := endReplay_ok hend
    exact ⟨d, p₀, p₁, hpre, hprep, hhook, hdrive, hcursor rfl rfl, rfl⟩
  · rintro ⟨d, p₀, p₁, hpre, hprep, hhook, hdrive, hcursor, rfl⟩
    rw [replay, (launch_whole_iff hfrom hto).mpr ⟨d, p₀, hpre, hprep, hhook, rfl⟩]
    dsimp only
    rw [List.drop_zero, Nat.sub_zero, List.take_length, hdrive]
    dsimp only
    rw [endReplay]
    dsimp only
    rw [if_neg (by simp), if_neg (not_not_intro hcursor)]

end Boundarylog
