import WasmRecorder.Boundarylog.ReplaySimulation

/-!
# Seeking

A replay may start at a quiescent point other than the first, with the instance put back
into the state it had there. The cursor is then not the outcome of an execution: it is
seeded from the list of exported calls. The results here say that the seed is right, so that
a resumed replay drives exactly the calls the whole replay drives in that range.

* `driveCalls_tracked` — the same calls from the same state leave the same log.
* `replay_seek` — seek equivalence.
-/

namespace Boundarylog

open Interaction

variable {σ κ : Type}

/-! ### The log of a stretch of calls -/

/-- `p'` is `p` after driving the calls `cs` from a quiescent point on. -/
structure Logged (point : Nat) (cs : List Crossing) (p p' : Progress σ) (logs : List CallLog)
    (passed : List (Nat × State σ)) : Prop where
  calls : p'.calls = p.calls ++ logs
  points : p'.points = p.points ++ passed
  startup : p'.startup = p.startup
  crossings : logs.map CallLog.crossing = cs
  numbers : passed.map Prod.fst = List.range' (point + 1) cs.length
  last : p.points.getLast? = some (point, p.state) →
    p'.points.getLast? = some (point + cs.length, p'.state)

theorem Logged.nil (point : Nat) (p : Progress σ) : Logged point [] p p [] [] :=
  ⟨(List.append_nil _).symm, (List.append_nil _).symm, rfl, rfl, rfl, id⟩

theorem Logged.cons {point : Nat} {c : Crossing} {cs : List Crossing} {p p₁ p' : Progress σ}
    {log : CallLog} {logs : List CallLog} {passed : List (Nat × State σ)}
    (hlog : log.crossing = c) (hcalls : p₁.calls = p.calls ++ [log])
    (hpoints : p₁.points = p.points ++ [(point + 1, p₁.state)])
    (hstartup : p₁.startup = p.startup) (h : Logged (point + 1) cs p₁ p' logs passed) :
    Logged point (c :: cs) p p' (log :: logs) ((point + 1, p₁.state) :: passed) where
  calls := by rw [h.calls, hcalls, List.append_assoc, List.singleton_append]
  points := by rw [h.points, hpoints, List.append_assoc, List.singleton_append]
  startup := h.startup.trans hstartup
  crossings := by rw [List.map_cons, hlog, h.crossings]
  numbers := by rw [List.map_cons, h.numbers, List.length_cons, List.range'_succ]
  last := by
    intro _
    rw [h.last (by rw [hpoints, List.getLast?_concat]), List.length_cons, Nat.add_right_comm,
      Nat.add_assoc]

namespace Driver

variable {d d₁ d₂ : Driver σ κ} {r : Recording} {fuel point : Nat} {c : Crossing}
  {cs : List Crossing} {p p' : Progress σ}

theorem driveCall_logged (h : d.driveCall fuel r point p c = some (.ok p')) :
    ∃ log, log.crossing = c ∧ p'.calls = p.calls ++ [log] ∧
      p'.points = p.points ++ [(point + 1, p'.state)] ∧ p'.startup = p.startup := by
  obtain ⟨p₁, hcall, hpass⟩ := driveCall_ok h
  obtain ⟨-, -, t, sig, args, s, tr, got, st, -, -, -, -, -, -, rfl⟩ := callExport_ok hcall
  obtain ⟨rfl, -⟩ := passPoint_ok hpass
  exact ⟨_, rfl, rfl, rfl, rfl⟩

theorem driveCalls_logged (h : d.driveCalls fuel r point p cs = some (.ok p')) :
    ∃ logs passed, Logged point cs p p' logs passed := by
  induction cs generalizing point p with
  | nil =>
    cases h
    exact ⟨[], [], Logged.nil _ _⟩
  | cons c cs ih =>
    obtain ⟨p₁, hcall, hrest⟩ := driveCalls_cons_ok h
    obtain ⟨log, hlog, hcalls, hpoints, hstartup⟩ := driveCall_logged hcall
    obtain ⟨logs, passed, hl⟩ := ih hrest
    exact ⟨_, _, hl.cons hlog hcalls hpoints hstartup⟩

theorem driveCall_cursor (h : d.driveCall fuel r point p c = some (.ok p')) :
    p.replayer.cursor = c.seq ∧ c.seq < r.crossings.length ∧ p'.replayer.err = none := by
  obtain ⟨p₁, hcall, hpass⟩ := driveCall_ok h
  obtain ⟨hcursor, hlt, t, sig, args, s, tr, got, st, -, -, -, -, herr, -, rfl⟩ :=
    callExport_ok hcall
  obtain ⟨rfl, -⟩ := passPoint_ok hpass
  exact ⟨hcursor, hlt, herr⟩

theorem driveCalls_err (hcs : cs ≠ []) (h : d.driveCalls fuel r point p cs = some (.ok p')) :
    p'.replayer.err = none := by
  induction cs generalizing point p with
  | nil => exact absurd rfl hcs
  | cons c cs ih =>
    obtain ⟨p₁, hcall, hrest⟩ := driveCalls_cons_ok h
    cases cs with
    | nil =>
      cases hrest
      exact (driveCall_cursor hcall).2.2
    | cons c' cs => exact ih (List.cons_ne_nil _ _) hrest

/-! ### The same calls from the same state -/

/-- Two replayers that expect the same crossing and are both free of errors, or both not.
Their counters may differ. -/
def Agrees (s t : Replayer) : Prop := t.cursor = s.cursor ∧ t.err = s.err

theorem serviceUnwitnessed_agrees {deferred : Bool} {plan : ImportPlan} {s t : Replayer}
    (h : Agrees s t) : Agrees (serviceUnwitnessedValuelessImport deferred r plan s)
      (serviceUnwitnessedValuelessImport deferred r plan t) := by
  constructor
  · rw [serviceUnwitnessed_cursor, serviceUnwitnessed_cursor, h.1]
  · rw [serviceUnwitnessed_err, serviceUnwitnessed_err, h.2]

theorem answerImport_agrees {plan : ImportPlan} {w : World} {s t : Replayer} (h : Agrees s t) :
    (answerImport r plan c s w).2 = (answerImport r plan c t w).2 ∧
      Agrees (answerImport r plan c s w).1 (answerImport r plan c t w).1 := by
  rw [answerImport, answerImport]
  split
  · exact ⟨rfl, h.1, rfl⟩
  · split_ifs
    · exact ⟨rfl, h.1, rfl⟩
    · split
      · exact ⟨rfl, h.1, rfl⟩
      · exact ⟨rfl, congrArg (· + 1) h.1, h.2⟩

/-- What a stub answers depends on the cursor and on whether there is an error, not on the
counters. -/
theorem serviceImport_agrees {plans : List ImportPlan} {deferred : Bool} {q : Request}
    {s t : Replayer} (h : Agrees s t) :
    (serviceImport plans deferred r s q).2 = (serviceImport plans deferred r t q).2 ∧
      Agrees (serviceImport plans deferred r s q).1 (serviceImport plans deferred r t q).1 := by
  rw [serviceImport, serviceImport, h.1, h.2]
  split
  · exact ⟨rfl, h⟩
  · split_ifs
    · exact ⟨rfl, h⟩
    · exact ⟨rfl, serviceUnwitnessed_agrees h⟩
    · split
      · exact ⟨rfl, rfl, rfl⟩
      · exact answerImport_agrees h

/-- Two drivers that differ at most in the hook. -/
structure SameButHook (d₁ d₂ : Driver σ κ) : Prop where
  guest : d₂.guest = d₁.guest
  plans : d₂.plans = d₁.plans
  deferred : d₂.deferred = d₁.deferred

theorem SameButHook.simulates (h : SameButHook d₁ d₂) :
    Simulates d₁ d₂ r r Agrees fun s => s.err ≠ none where
  guest := h.guest
  cursor := fun s t hst => hst.1
  err := fun s t hst hok => hst.2.trans (not_not.mp hok)
  doomed := fun s q hs => serviceImport_doomed s q hs
  step := by
    intro s t q _ hst
    right
    rw [serve, serve, h.plans, h.deferred]
    exact serviceImport_agrees hst

theorem driveCalls_tracked (h : SameButHook d₁ d₂) {p₁ p₁' p₂ : Progress σ}
    (hstate : p₂.state = p₁.state) (hagree : Agrees p₁.replayer p₂.replayer)
    (hdrive : d₁.driveCalls fuel r point p₁ cs = some (.ok p₁'))
    (hhook : ∀ hook, d₂.hook = some hook → ∀ i s, (i, s) ∈ p₁'.points → point < i →
      i ≤ point + cs.length → hook i s = .ok ()) :
    ∃ p₂' logs points, d₂.driveCalls fuel r point p₂ cs = some (.ok p₂') ∧
      Logged point cs p₁ p₁' logs points ∧ Logged point cs p₂ p₂' logs points := by
  induction cs generalizing point p₁ p₂ with
  | nil =>
    cases hdrive
    exact ⟨p₂, [], [], rfl, Logged.nil _ _, Logged.nil _ _⟩
  | cons c cs ih =>
    obtain ⟨q₁, hcall, hrest⟩ := driveCalls_cons_ok hdrive
    obtain ⟨u₁, hexport, hpass⟩ := driveCall_ok hcall
    obtain ⟨log₁, hlog₁, hcalls₁, hpoints₁, hstartup₁⟩ := driveCall_logged hcall
    obtain ⟨-, hlt, herr⟩ := driveCall_cursor hcall
    obtain ⟨hq₁, -⟩ := passPoint_ok hpass
    have hstate₁ : q₁.state = u₁.state := by rw [hq₁]
    have hrep₁ : q₁.replayer = u₁.replayer := by rw [hq₁]
    obtain ⟨log, s, hsync, -, hu₁, hexport₂⟩ :=
      h.simulates.callExport hstate hagree.1 ⟨congrArg (· + 1) hagree.1, hagree.2⟩ hlt hexport
        (not_not.mpr (hrep₁ ▸ herr))
    have hcalls : q₁.calls = p₁.calls ++ [log] := by rw [hq₁, hu₁]
    have hlog : log₁ = log := by
      rw [hcalls, List.append_cancel_left_eq, List.singleton_inj] at hcalls₁
      exact hcalls₁.symm
    -- the hook of the second driver accepts the point just reached
    obtain ⟨logs₁, passed₁, hl₁⟩ := driveCalls_logged hrest
    have hhere : ∀ hook, d₂.hook = some hook → hook (point + 1) u₁.state = .ok () := by
      intro hook hk
      refine hhook hook hk _ _ ?_ (Nat.lt_succ_self _) (by rw [List.length_cons]; omega)
      rw [hl₁.points, hpoints₁, hstate₁]
      simp
    obtain ⟨q₂, hcall₂, hstate₂, hrep₂, hcalls₂, hpoints₂, hstartup₂⟩ : ∃ q₂,
        d₂.driveCall fuel r point p₂ c = some (.ok q₂) ∧ q₂.state = u₁.state ∧
        q₂.replayer = s ∧ q₂.calls = p₂.calls ++ [log] ∧
        q₂.points = p₂.points ++ [(point + 1, q₂.state)] ∧ q₂.startup = p₂.startup := by
      refine ⟨{ p₂ with
        replayer := s, state := u₁.state, calls := p₂.calls ++ [log]
        points := p₂.points ++ [(point + 1, u₁.state)] }, ?_, rfl, rfl, rfl, rfl, rfl⟩
      rw [driveCall, hexport₂]
      dsimp only
      rw [passPoint_of_hook (p := { p₂ with
        replayer := s, state := u₁.state, calls := p₂.calls ++ [log] }) hhere]
    obtain ⟨p₂', logs, passed, hdrive₂, hl, hl₂⟩ := ih (hstate₂.trans hstate₁.symm)
      (by rw [hrep₁, hrep₂]; exact hsync) hrest
      (fun hook hk i st hi hlo hhi =>
        hhook hook hk i st hi (by omega) (by rw [List.length_cons]; omega))
    subst hlog
    refine ⟨p₂', log₁ :: logs, (point + 1, u₁.state) :: passed,
      (driveCalls_cons cs hcall₂).trans hdrive₂, ?_, ?_⟩
    · rw [← hstate₁]
      exact hl.cons hlog₁ hcalls hpoints₁ hstartup₁
    · rw [← hstate₂]
      exact hl₂.cons hlog₁ hcalls₂ hpoints₂ hstartup₂

end Driver

/-! ### Whole replays and resumed ones -/

variable {guest : Guest σ κ} {opts : Options σ} {r : Recording} {fuel : Nat} {p : Progress σ}

theorem checkExports_hook (d : Driver σ κ) (hook : Option (Nat → State σ → Except Text Unit))
    (cs : List Crossing) : checkExports { d with hook } cs = checkExports d cs := by
  induction cs with
  | nil => rfl
  | cons c cs ih =>
    have hc : Driver.checkExportCrossing { d with hook } c = d.checkExportCrossing c := rfl
    rw [checkExports, checkExports, hc, ih]

theorem precheck_hook {opts' : Options σ} {d : Driver σ κ}
    (hmanifest : opts'.manifest = opts.manifest) (h : precheck guest opts r = .ok d) :
    precheck guest opts' r = .ok { d with hook := opts'.atQuiescentPoint } := by
  obtain ⟨hguest, hman, hdef, -, hplans, hexports, hnested⟩ := precheck_ok h
  subst hguest
  have hd : (⟨d.guest, d.plans, false, opts'.manifest, opts'.atQuiescentPoint⟩ : Driver σ κ) =
      { d with hook := opts'.atQuiescentPoint } := by
    rw [hmanifest, ← hman, ← hdef]
  have hplans' : planImports d.guest.compiled opts'.manifest = .ok d.plans := by
    rw [hmanifest, ← hman]
    exact hplans
  rw [precheck, hplans']
  dsimp only
  rw [hd, checkExports_hook, hexports, hnested]
  rfl

/-- What the cursor of a resumed replay is seeded with. -/
def seedCursor (r : Recording) (point : Nat) : Nat :=
  match r.topLevelExports[point]? with
  | some c => c.seq
  | none => r.crossings.length

theorem seek_ok {start : Nat} {p p' : Progress σ} (h : seek opts r start p = .ok p') :
    (start = 0 ∧ p' = p) ∨ start ≠ 0 ∧ ∃ resume st, opts.resume = some resume ∧
      resume p.state = .ok st ∧
      p' = { p with replayer := { p.replayer with cursor := seedCursor r start }, state := st } := by
  rw [seek] at h
  by_cases hstart : start = 0
  · rw [if_pos hstart] at h
    exact .inl ⟨hstart, (Except.ok.inj h).symm⟩
  · rw [if_neg hstart] at h
    dsimp only at h
    cases hres : opts.resume with
    | none =>
      rw [hres] at h
      cases h
    | some resume =>
      rw [hres] at h
      dsimp only at h
      cases hst : resume p.state with
      | error e =>
        rw [hst] at h
        cases h
      | ok st =>
        rw [hst] at h
        exact .inr ⟨hstart, resume, st, rfl, hst, (Except.ok.inj h).symm⟩

/-- **The seed is right**: it is the cursor a replay has at that quiescent point, if it goes on
to drive the remaining calls and consumes the whole recording. -/
theorem cursor_at_point {d : Driver σ κ} {k : Nat} {q q' : Progress σ}
    (hdrive : d.driveCalls fuel r k q (r.topLevelExports.drop k) = some (.ok q'))
    (hcursor : q'.replayer.cursor = r.crossings.length) :
    q.replayer.cursor = seedCursor r k := by
  rw [seedCursor]
  cases hk : r.topLevelExports[k]? with
  | none =>
    rw [List.drop_eq_nil_of_le (List.getElem?_eq_none_iff.mp hk)] at hdrive
    cases hdrive
    exact hcursor
  | some c =>
    rw [List.drop_eq_getElem?_toList_append, hk] at hdrive
    obtain ⟨q₁, hcall, -⟩ := Driver.driveCalls_cons_ok hdrive
    exact (Driver.driveCall_cursor hcall).1

theorem resolveRange_partial {k m n : Nat} (hk : 0 < k) (hkm : k ≤ m) (hm : m ≤ n)
    (hfrom : opts.fromPoint = k) (hto : opts.toPoint = m) (hresume : opts.resume.isSome) :
    resolveRange opts n = .ok (k, m) := by
  have hm₀ : (m : Int) ≠ 0 := by omega
  have h₁ : ¬ ((k : Int) < 0 ∨ (n : Int) < k) := by omega
  have h₂ : ¬ ((m : Int) < k ∨ (n : Int) < m) := by omega
  have h₃ : ¬ (0 < (k : Int) ∧ opts.resume.isNone) := by
    rintro ⟨-, hnone⟩
    rw [Option.isNone_iff_eq_none] at hnone
    rw [hnone] at hresume
    cases hresume
  rw [resolveRange, hfrom, hto, if_neg hm₀]
  rw [if_neg h₁, if_neg h₂, if_neg h₃, Int.toNat_natCast, Int.toNat_natCast]

theorem Logged.from_start {k : Nat} {cs : List Crossing} {q₀ q : Progress σ}
    {logs : List CallLog} {passed : List (Nat × State σ)} (hcalls : q₀.calls = [])
    (hpoints : q₀.points = [(0, q₀.state)]) (hcs : cs.length = k)
    (h : Logged 0 cs q₀ q logs passed) :
    q.calls.length = k ∧ q.points[0]? = some (0, q₀.state) ∧
      ∃ front, front.length = k ∧ q.points = front ++ [(k, q.state)] := by
  have hlast := h.last (by rw [hpoints]; rfl)
  rw [Nat.zero_add, hcs] at hlast
  have hlogs : logs.length = k := by rw [← hcs, ← h.crossings, List.length_map]
  have hpassed : passed.length = k := by
    rw [← List.length_map Prod.fst, h.numbers, List.length_range', hcs]
  refine ⟨by rw [h.calls, hcalls, List.nil_append, hlogs], by rw [h.points, hpoints]; rfl,
    q.points.dropLast, ?_, (List.dropLast_append_getLast? _ hlast).symm⟩
  rw [List.length_dropLast, h.points, hpoints, List.length_append, List.length_singleton,
    hpassed, Nat.add_sub_cancel_left]

theorem driveCalls_cut {d : Driver σ κ} {cs : List Crossing} {point : Nat} {q q' : Progress σ}
    (n : Nat) (h : d.driveCalls fuel r point q cs = some (.ok q')) (hn : n ≤ cs.length) :
    ∃ q₁, d.driveCalls fuel r point q (cs.take n) = some (.ok q₁) ∧
      d.driveCalls fuel r (point + n) q₁ (cs.drop n) = some (.ok q') := by
  rw [← List.take_append_drop n cs] at h
  obtain ⟨q₁, hfirst, hsecond⟩ := Driver.driveCalls_append_ok h
  rw [List.length_take, Nat.min_eq_left hn] at hsecond
  exact ⟨q₁, hfirst, hsecond⟩

theorem launch_resumed {d : Driver σ κ} {k m : Nat} {p₀ : Progress σ} {s : State σ}
    {resume : State σ → Except Text (State σ)} (hk : 0 < k) (hkm : k ≤ m)
    (hm : m ≤ r.topLevelExports.length) (hpre : precheck guest opts r = .ok d)
    (hprep : d.prepare fuel r = some (.ok p₀)) (hfrom : opts.fromPoint = k)
    (hto : opts.toPoint = m) (hresume : opts.resume = some resume)
    (hput : resume p₀.state = .ok s) (hhook : ∀ hook, d.hook = some hook → hook k s = .ok ()) :
    launch fuel guest opts r = some (.ok ⟨d, k, m, { p₀ with
      replayer := { p₀.replayer with cursor := seedCursor r k }, state := s
      points := p₀.points ++ [(k, s)] }⟩) := by
  have hrange := resolveRange_partial hk hkm hm hfrom hto (by rw [hresume]; rfl)
  have hseek : seek opts r k p₀ = .ok { p₀ with
      replayer := { p₀.replayer with cursor := seedCursor r k }, state := s } := by
    rw [seek, if_neg hk.ne', hresume]
    dsimp only
    rw [hput]
    rfl
  have hpass : d.passPoint k { p₀ with
      replayer := { p₀.replayer with cursor := seedCursor r k }, state := s } = .ok { p₀ with
      replayer := { p₀.replayer with cursor := seedCursor r k }, state := s
      points := p₀.points ++ [(k, s)] } := Driver.passPoint_of_hook hhook
  exact launch_eq hpre hprep hrange hseek hpass

/-- **Seek equivalence.** Take a whole replay that returns no error and whose instantiation
calls no import, and let it pass through the states `s₀, …, s_N`. A replay of the points
`k..m` whose `resume` puts the fresh instance into `s_k` returns no error, passes exactly the
points `k..m` in the same states, and drives exactly the calls, with the same arguments and
the same conversations with the imports, that the whole replay drives between them. -/
theorem replay_seek {opts' : Options σ} {k m : Nat} {s₀ sₖ : State σ}
    {resume : State σ → Except Text (State σ)} (hfrom : opts.fromPoint = 0)
    (hto : opts.toPoint = 0) (hwhole : replay fuel guest opts r = some (.ok p))
    (hstartup : p.startup = []) (hk : 0 < k) (hkm : k ≤ m) (hm : m ≤ r.topLevelExports.length)
    (hs₀ : p.points[0]? = some (0, s₀)) (hsₖ : p.points[k]? = some (k, sₖ))
    (hmanifest : opts'.manifest = opts.manifest) (hfrom' : opts'.fromPoint = k)
    (hto' : opts'.toPoint = m) (hresume : opts'.resume = some resume)
    (hput : resume s₀ = .ok sₖ)
    (hhook : ∀ hook, opts'.atQuiescentPoint = some hook → ∀ i s, (i, s) ∈ p.points →
      k ≤ i → i ≤ m → hook i s = .ok ()) :
    ∃ p', replay fuel guest opts' r = some (.ok p') ∧ p'.startup = [] ∧
      p'.points = (p.points.drop k).take (m - k + 1) ∧
      p'.points.map Prod.fst = List.range' k (m - k + 1) ∧
      p'.calls = (p.calls.drop k).take (m - k) := by
  obtain ⟨d, p₀, p₁, hpre, hprep, -, hdrive, hcursor, rfl⟩ :=
    (replay_whole_iff hfrom hto).mp hwhole
  obtain ⟨-, w, s, tr, res, st, w', -, hrun, -, hp₀⟩ := Driver.prepare_ok hprep
  -- the whole run, cut at the two points
  obtain ⟨pₖ, hfirst, hrest⟩ := driveCalls_cut k hdrive (hkm.trans hm)
  rw [Nat.zero_add] at hrest
  obtain ⟨pₘ, hmid, hlast⟩ := driveCalls_cut (m - k) hrest (by rw [List.length_drop]; omega)
  obtain ⟨logs₁, passed₁, hl₁⟩ := Driver.driveCalls_logged hfirst
  obtain ⟨logs₂, passed₂, hl₂⟩ := Driver.driveCalls_logged hmid
  obtain ⟨logs₃, passed₃, hl₃⟩ := Driver.driveCalls_logged hlast
  have hseed := cursor_at_point hrest hcursor
  have herr : pₖ.replayer.err = none := by
    refine Driver.driveCalls_err ?_ hfirst
    rw [ne_eq, List.take_eq_nil_iff, not_or]
    exact ⟨hk.ne', List.ne_nil_of_length_pos (by omega)⟩
  -- nothing happened while instantiating
  have hsilent : p₀.replayer = {} := by
    have htr : tr = [] := by
      have hstart : p₁.startup = p₀.startup := by rw [hl₃.startup, hl₂.startup, hl₁.startup]
      rw [hp₀] at hstart
      exact hstart.symm.trans hstartup
    rw [htr] at hrun
    rw [hp₀]
    exact drive_silent hrun
  have hlen : (r.topLevelExports.take k).length = k := by
    rw [List.length_take]
    omega
  have hlen₂ : ((r.topLevelExports.drop k).take (m - k)).length = m - k := by
    rw [List.length_take, List.length_drop]
    omega
  obtain ⟨hcallsₖ, hpoint₀, front, hfront, hpₖ⟩ :=
    hl₁.from_start (by rw [hp₀]) (by rw [hp₀]; rfl) hlen
  have hall : p₁.points = front ++ ((k, pₖ.state) :: (passed₂ ++ passed₃)) := by
    rw [hl₃.points, hl₂.points, hpₖ]
    simp
  obtain rfl : sₖ = pₖ.state := by
    dsimp only at hsₖ
    rw [hall, List.getElem?_append_right hfront.le, hfront, Nat.sub_self] at hsₖ
    simpa using hsₖ.symm
  obtain rfl : s₀ = p₀.state := by
    dsimp only at hs₀
    have hlt : 0 < pₖ.points.length := by
      rw [hpₖ, List.length_append]
      exact Nat.succ_pos _
    rw [hl₃.points, hl₂.points, List.append_assoc, List.getElem?_append_left hlt, hpoint₀] at hs₀
    simpa using hs₀.symm
  -- the resumed replay, up to its first call
  have hmem : ∀ x ∈ pₘ.points, x ∈ p₁.points := by
    intro x hx
    rw [hl₃.points]
    exact List.mem_append_left _ hx
  have hlaunch := launch_resumed hk hkm hm (precheck_hook hmanifest hpre) hprep hfrom' hto'
    hresume hput (fun hook hk' => hhook hook hk' k pₖ.state (by rw [hall]; simp) le_rfl hkm)
  obtain ⟨q₀, hq₀⟩ : ∃ q₀ : Progress σ, q₀ = { p₀ with
      replayer := { p₀.replayer with cursor := seedCursor r k }, state := pₖ.state
      points := p₀.points ++ [(k, pₖ.state)] } := ⟨_, rfl⟩
  rw [← hq₀] at hlaunch
  have hstate : q₀.state = pₖ.state := by rw [hq₀]
  have hagree : Driver.Agrees pₖ.replayer q₀.replayer := by
    rw [hq₀, hsilent]
    exact ⟨hseed.symm, herr.symm⟩
  have hsame : Driver.SameButHook d { d with hook := opts'.atQuiescentPoint } := ⟨rfl, rfl, rfl⟩
  obtain ⟨q, logs, passed, hresumed, hlog, hlog'⟩ := Driver.driveCalls_tracked hsame hstate
    hagree hmid (fun hook hk' i st hi hlo hhi =>
      hhook hook hk' i st (hmem _ hi) hlo.le (by omega))
  have hlogs : logs.length = m - k := by rw [← hlen₂, ← hlog.crossings, List.length_map]
  have hpassed : passed.length = m - k := by
    rw [← List.length_map Prod.fst, hlog.numbers, List.length_range', hlen₂]
  have hqpoints : q.points = (k, pₖ.state) :: passed := by
    rw [hlog'.points, hq₀, hp₀]
    rfl
  refine ⟨{ q with replayer := { q.replayer with result := { q.replayer.result with
      fromPoint := k, toPoint := m } } }, ?_, ?_, ?_, ?_, ?_⟩
  · rw [replay, hlaunch]
    dsimp only
    rw [hresumed]
    dsimp only
    rw [endReplay, if_pos (Or.inr hk.ne')]
  · change q.startup = []
    rw [hlog'.startup, hq₀]
    rw [hl₃.startup, hl₂.startup, hl₁.startup] at hstartup
    exact hstartup
  · change q.points = (p₁.points.drop k).take (m - k + 1)
    rw [hqpoints, hl₃.points, hlog.points, hpₖ, List.append_assoc, List.append_assoc,
      List.drop_left' hfront, ← List.append_assoc, List.take_left' (by simp [hpassed])]
    rfl
  · change q.points.map Prod.fst = _
    rw [hqpoints, List.map_cons, hlog.numbers, hlen₂, List.range'_succ]
  · change q.calls = (p₁.calls.drop k).take (m - k)
    rw [hl₃.calls, hlog.calls, List.append_assoc, List.drop_left' hcallsₖ,
      List.take_left' hlogs, hlog'.calls, hq₀, hp₀]
    rfl

/-- Two calls of the forwarder, answered `7` and `8`. -/
def forwardedTwice : Recording where
  crossings := [
    { seq := 0, depth := 0, kind := .export, name := "f".toList
      results := [⟨"Int".toList, "7".toList⟩], hasResults := true },
    { seq := 1, depth := 1, kind := .import, index := 0
      results := [⟨"Int".toList, "7".toList⟩], hasResults := true },
    { seq := 2, depth := 0, kind := .export, name := "f".toList
      results := [⟨"Int".toList, "8".toList⟩], hasResults := true },
    { seq := 3, depth := 1, kind := .import, index := 0
      results := [⟨"Int".toList, "8".toList⟩], hasResults := true }]

def forwarderTwiceScript : Script forwarder where
  calls := [⟨[forwarderRequest], [7], []⟩, ⟨[forwarderRequest], [8], []⟩]

/-- Replay the points `k..m` from a saved state. -/
def Options.resumed (k m : Nat) (s : State σ) : Options σ where
  fromPoint := k
  toPoint := m
  resume := some fun _ => .ok s

theorem replay_seek_forwardedTwice :
    ∃ p s₀ s₁ p', replay 10 forwarderTwiceScript.guest {} forwardedTwice = some (.ok p) ∧
      p.points.take 2 = [(0, s₀), (1, s₁)] ∧
      replay 10 forwarderTwiceScript.guest (.resumed 1 2 s₁) forwardedTwice =
        some (.ok p') ∧
      p'.points = (p.points.drop 1).take 2 ∧ p'.calls = (p.calls.drop 1).take 1 := by
  have hrun : (replay 10 forwarderTwiceScript.guest {} forwardedTwice).map
      (fun x => x.toOption.map fun p => (p.startup.length, p.points.map Prod.fst)) =
        some (some (0, [0, 1, 2])) := by
    decide +kernel
  obtain ⟨x, hx, hlog⟩ := Option.map_eq_some_iff.mp hrun
  cases x with
  | error e => cases hlog
  | ok p =>
    simp only [Except.toOption, Option.map_some, Option.some.injEq, Prod.mk.injEq,
      List.length_eq_zero_iff] at hlog
    obtain ⟨hstartup, hnumbers⟩ := hlog
    obtain ⟨⟨_, s₀⟩, rest₀, hp, rfl, hrest₀⟩ := List.map_eq_cons_iff.mp hnumbers
    obtain ⟨⟨_, s₁⟩, rest₁, rfl, rfl, -⟩ := List.map_eq_cons_iff.mp hrest₀
    have hmanifest : (Options.resumed 1 2 s₁).manifest = ({} : Options Nat).manifest := rfl
    obtain ⟨p', hresumed, -, hpoints, -, hcalls⟩ := replay_seek rfl rfl hx hstartup
      (by decide : 0 < 1) (by decide : 1 ≤ 2) (by decide +kernel) (by rw [hp]; rfl)
      (by rw [hp]; rfl) hmanifest rfl rfl rfl rfl nofun
    exact ⟨p, s₀, s₁, p', hx, by rw [hp]; rfl, hresumed, hpoints, hcalls⟩

end Boundarylog
