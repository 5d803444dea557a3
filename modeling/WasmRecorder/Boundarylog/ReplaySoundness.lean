import WasmRecorder.Boundarylog.ReplaySteps

/-!
# Soundness of the replay

A replay that returns no error drove the execution that was recorded. The statement is about
*boundary events*: each exported call with its argument and result words, each import call
with its index, its argument words and the result words handed back.

* `Faithful` — the invariant of the driver between two calls. `callExport_faithful` is the
  step lemma, `driveCalls_faithful` the run lemma.
* `replay_sound` — the events of an accepted replay, less the uncheckable ones, are the
  recording's crossings; the uncheckable ones are counted.
-/

namespace Boundarylog

open Fallible (returnsWith returnsWith_iff)
open Interaction Slice

/-! ### Boundary events -/

/-- One traversal of the boundary as it was executed. -/
inductive BoundaryEvent where
  | «export» (name : Text) (args results : List UInt64)
  | «import» (index : Nat) (args results : List UInt64)
  deriving DecidableEq, Repr

def importEvent (x : Request × Answer) : BoundaryEvent := .import x.1.index x.1.args x.2.results

/-- An exported call, then the import calls it made. -/
def CallLog.events (l : CallLog) : List BoundaryEvent :=
  .export l.crossing.name l.args l.results :: l.imports.map importEvent

variable {σ κ : Type}

/-- Everything that crossed the boundary, in call order. -/
def Progress.events (p : Progress σ) : List BoundaryEvent :=
  p.startup.map importEvent ++ p.calls.flatMap CallLog.events

/-- Decode both tuples of a crossing. -/
def Crossing.decodedTuples (c : Crossing) (sig : Signature) : Option (List UInt64 × List UInt64) :=
  match decodeTuple "argument".toList c.args sig.params,
      decodeTuple "result".toList c.results sig.results with
  | .ok args, .ok results => some (args.map Value.bits, results.map Value.bits)
  | _, _ => none

/-- A crossing as a boundary event, decoded against the signature the module declares. -/
def Crossing.decoded (compiled : Compiled) (c : Crossing) : Option BoundaryEvent :=
  match c.kind with
  | .export =>
    (compiled.exportedFunctions.lookup c.name).bind fun t =>
      (signatureOf t).bind fun sig =>
        (c.decodedTuples sig).map fun x => .export c.name x.1 x.2
  | .import =>
    (compiled.importedFunctions[c.index.toNat]?).bind fun f =>
      (signatureOf f.type).bind fun sig =>
        (c.decodedTuples sig).map fun x => .import c.index.toNat x.1 x.2

/-- A call to an import `() -> ()` while the markers do not name imports. -/
def BoundaryEvent.uncheckable (compiled : Compiled) (r : Recording) : BoundaryEvent → Bool
  | .export _ _ _ => false
  | .import i _ _ =>
    ((compiled.importedFunctions[i]?).any fun f => f.type.params.isEmpty && f.type.results.isEmpty)
      && !r.markersIdentifyImports

/-- The events that correspond to a crossing. -/
def checkable (compiled : Compiled) (r : Recording) (events : List BoundaryEvent) :
    List BoundaryEvent :=
  events.filter fun e => !e.uncheckable compiled r

/-- The number of events that do not. -/
def uncheckableCount (compiled : Compiled) (r : Recording) (events : List BoundaryEvent) : Nat :=
  events.countP fun e => e.uncheckable compiled r

theorem checkable_append (compiled : Compiled) (r : Recording) (es es' : List BoundaryEvent) :
    checkable compiled r (es ++ es') = checkable compiled r es ++ checkable compiled r es' :=
  List.filter_append _ _

theorem uncheckableCount_append (compiled : Compiled) (r : Recording)
    (es es' : List BoundaryEvent) :
    uncheckableCount compiled r (es ++ es') =
      uncheckableCount compiled r es + uncheckableCount compiled r es' :=
  List.countP_append

theorem signatureOf_isEmpty {t : FunctionType} {sig : Signature} (h : signatureOf t = some sig) :
    sig.isEmpty = (t.params.isEmpty && t.results.isEmpty) := by
  obtain ⟨hp, hr⟩ := signatureOf_length h
  rw [Bool.eq_iff_iff]
  simp only [Signature.isEmpty, Bool.and_eq_true, List.isEmpty_iff_length_eq_zero, hp, hr]

variable {compiled : Compiled} {r : Recording}

theorem uncheckable_importEvent {f : ImportedFunction} {plan : ImportPlan} {q : Request}
    (a : Answer) (hf : compiled.importedFunctions[q.index]? = some f)
    (hsig : signatureOf f.type = some plan.sig) :
    (importEvent (q, a)).uncheckable compiled r = unwitnessed r plan := by
  rw [importEvent, BoundaryEvent.uncheckable, hf, unwitnessed, signatureOf_isEmpty hsig]
  rfl

theorem Matches.decoded {f : ImportedFunction} {plan : ImportPlan} {cursor : Nat} {q : Request}
    {c : Crossing} {a : Answer} (h : Matches r plan cursor q c a)
    (hf : compiled.importedFunctions[q.index]? = some f) (hindex : plan.index.toNat = q.index)
    (hsig : signatureOf f.type = some plan.sig) :
    c.decoded compiled = some (importEvent (q, a)) := by
  obtain ⟨args, hargs, hargs'⟩ := h.args
  obtain ⟨results, hres, hres'⟩ := h.results
  rw [Crossing.decoded, h.kind]
  simp only [h.index, hindex, hf, hsig, Option.bind_some, Crossing.decodedTuples, hargs, hres,
    Option.map_some, hargs', hres', importEvent]

/-! ### A stretch of execution -/

/-- What a stretch of execution without error did: it consumed the crossings between two
cursors, all of them imports, one for each checkable call it made. -/
structure Conversed (compiled : Compiled) (r : Recording) (s s' : Replayer)
    (tr : List (Request × Answer)) : Prop where
  le : s.cursor ≤ s'.cursor
  bound : s'.cursor ≤ r.crossings.length
  imports : ∀ c ∈ slice r.crossings s.cursor s'.cursor, c.kind = .import
  events : (checkable compiled r (tr.map importEvent)).map some =
    (slice r.crossings s.cursor s'.cursor).map (Crossing.decoded compiled)
  result : s'.result = { s.result with
    importCalls := s.result.importCalls + (s'.cursor - s.cursor)
    uncheckedImportCalls := s.result.uncheckedImportCalls
      + uncheckableCount compiled r (tr.map importEvent) }

theorem Conversed.refl {s : Replayer} (hbound : s.cursor ≤ r.crossings.length) :
    Conversed compiled r s s [] where
  le := le_refl _
  bound := hbound
  imports := by rw [slice_self]; intro c hc; cases hc
  events := by rw [slice_self]; rfl
  result := by rw [Nat.sub_self]; rfl

theorem Conversed.count {s s' : Replayer} {tr : List (Request × Answer)}
    (h : Conversed compiled r s s' tr) {s'' : Replayer} {x : Request × Answer}
    (hx : (importEvent x).uncheckable compiled r = true) (hcursor : s''.cursor = s'.cursor)
    (hresult : s''.result =
      { s'.result with uncheckedImportCalls := s'.result.uncheckedImportCalls + 1 }) :
    Conversed compiled r s s'' (tr ++ [x]) where
  le := hcursor ▸ h.le
  bound := hcursor ▸ h.bound
  imports := hcursor ▸ h.imports
  events := by
    have hnone : checkable compiled r [importEvent x] = [] := by simp [checkable, hx]
    rw [List.map_append, checkable_append, List.map_singleton, hnone, List.append_nil, hcursor,
      h.events]
  result := by
    have hone : uncheckableCount compiled r [importEvent x] = 1 := by simp [uncheckableCount, hx]
    rw [hresult, h.result, hcursor, List.map_append, uncheckableCount_append, List.map_singleton,
      hone, ← Nat.add_assoc]

theorem Conversed.consume {s s' : Replayer} {tr : List (Request × Answer)}
    (h : Conversed compiled r s s' tr) {x : Request × Answer} {c : Crossing}
    (hx : (importEvent x).uncheckable compiled r = false) (hc : r.crossings[s'.cursor]? = some c)
    (hkind : c.kind = .import) (hdec : c.decoded compiled = some (importEvent x)) :
    Conversed compiled r s s'.consume (tr ++ [x]) where
  le := h.le.trans (Nat.le_succ _)
  bound := (List.getElem?_eq_some_iff.mp hc).1
  imports := by
    rw [Replayer.consume, slice_succ h.le hc]
    intro c' hc'
    rcases List.mem_append.mp hc' with hc' | hc'
    · exact h.imports c' hc'
    · rw [List.mem_singleton.mp hc']; exact hkind
  events := by
    have hone : checkable compiled r [importEvent x] = [importEvent x] := by simp [checkable, hx]
    rw [List.map_append, checkable_append, List.map_singleton, hone, List.map_append, h.events,
      Replayer.consume, slice_succ h.le hc, List.map_append, List.map_singleton,
      List.map_singleton, hdec]
  result := by
    have hnone : uncheckableCount compiled r [importEvent x] = 0 := by
      simp [uncheckableCount, hx]
    have hsub : s'.cursor + 1 - s.cursor = s'.cursor - s.cursor + 1 := by
      have := h.le
      omega
    rw [Replayer.consume, h.result, List.map_append, uncheckableCount_append, List.map_singleton,
      hnone, hsub]
    rfl

namespace Driver

variable {d : Driver σ κ} {fuel : Nat} {r : Recording} {p p' : Progress σ} {c : Crossing}

theorem run_err {s s' : Replayer} {x : κ} {tr : List (Request × Answer)} {halt : Halt σ}
    (hrun : d.run fuel r s x = some (s', tr, halt)) (herr : s'.err = none) : s.err = none := by
  by_contra hne
  exact drive_preserves (fun s => s.err ≠ none) (fun s q hs => serviceImport_doomed s q hs) hne hrun
    herr

/-- **A run without error** consumed consecutive crossings. -/
theorem run_conversed (hplans : planImports d.guest.compiled d.manifest = .ok d.plans)
    {s s' : Replayer} {x : κ} {tr : List (Request × Answer)} {halt : Halt σ}
    (hbound : s.cursor ≤ r.crossings.length)
    (hrun : d.run fuel r s x = some (s', tr, halt)) (herr : s'.err = none) :
    Conversed d.guest.compiled r s s' tr := by
  have hdrive : drive d.guest.next (d.serve r) fuel s x = some (s', tr, halt) := hrun
  have hrule := drive_induct
    (fun s' tr => s'.err = none → Conversed d.guest.compiled r s s' tr)
    (fun q => ∃ f plan, d.guest.compiled.importedFunctions[q.index]? = some f ∧
      d.plans[q.index]? = some plan ∧ plan.index.toNat = q.index ∧
      signatureOf f.type = some plan.sig ∧ q.args.length = plan.sig.params.length)
    (fun x q resume hreq => request_plan hplans hreq) ?_ [] (fun _ => Conversed.refl hbound) hdrive
  · exact hrule herr
  · -- one call: counted, stashed as an error, or consumed
    rintro h tr q ⟨f, plan, hf, hplan, hindex, hsig, hargs⟩ hinv herr'
    have herr₀ : h.err = none := by
      by_contra hne
      exact serviceImport_doomed h q hne herr'
    have hconv := hinv herr₀
    have hserve : d.serve r h q = serviceImport d.plans d.deferred r h q := rfl
    rcases serviceImport_cases d.deferred r hplan hargs herr₀ with
      ⟨hun, hout⟩ | ⟨e, w, hout⟩ | ⟨hun, c, a, hmatch, hout⟩
    · rw [hserve, hout]
      exact hconv.count ((uncheckable_importEvent _ hf hsig).trans hun)
        (serviceUnwitnessed_cursor _ _ _ _) (serviceUnwitnessed_result _ _ _ _)
    · rw [hserve, hout] at herr'
      cases herr'
    · rw [hserve, hout]
      exact hconv.consume ((uncheckable_importEvent _ hf hsig).trans hun) hmatch.crossing
        hmatch.kind (hmatch.decoded hf hindex hsig)

/-! ### The driver between two calls -/

/-- The events so far are the crossings below the cursor. -/
structure Faithful (compiled : Compiled) (r : Recording) (p : Progress σ) : Prop where
  err : p.replayer.err = none
  bound : p.replayer.cursor ≤ r.crossings.length
  events : (checkable compiled r p.events).map some =
    (r.crossings.take p.replayer.cursor).map (Crossing.decoded compiled)
  unchecked : p.replayer.result.uncheckedImportCalls = uncheckableCount compiled r p.events

theorem prepare_faithful (hplans : planImports d.guest.compiled d.manifest = .ok d.plans)
    (h : d.prepare fuel r = some (.ok p)) (herr : p.replayer.err = none) :
    Faithful d.guest.compiled r p := by
  obtain ⟨-, w, s, tr, res, st, w', -, hrun, -, rfl⟩ := prepare_ok h
  have hconv := run_conversed hplans (Nat.zero_le _) hrun herr
  refine ⟨herr, hconv.bound, ?_, ?_⟩
  · simp only [Progress.events, List.flatMap_nil, List.append_nil]
    rw [hconv.events, slice_zero]
  · simp only [Progress.events, List.flatMap_nil, List.append_nil]
    rw [hconv.result]
    exact Nat.zero_add _

theorem decoded_export {t : FunctionType} {sig : Signature} {args : List Value}
    {got : List UInt64} {compiled : Compiled} (hkind : c.kind = .export)
    (ht : compiled.exportedFunctions.lookup c.name = some t) (hsig : signatureOf t = some sig)
    (hargs : decodeTuple "argument".toList c.args sig.params = .ok args)
    (hres : checkResults c sig got = .ok ()) :
    c.decoded compiled = some (.export c.name (args.map Value.bits) got) := by
  obtain ⟨want, hwant, hbits⟩ := checkResults_ok hres
  rw [Crossing.decoded, hkind]
  simp only [ht, hsig, Option.bind_some, Crossing.decodedTuples, hargs, hwant, Option.map_some,
    hbits]

/-- What one exported call that succeeds did: it consumed its own crossing and
then the import crossings up to the cursor it left. -/
theorem callExport_conversed (hplans : planImports d.guest.compiled d.manifest = .ok d.plans)
    (hkind : c.kind = .export)
    (h : d.callExport fuel r p c = some (.ok p')) :
    ∃ log, p.replayer.err = none ∧ p.replayer.cursor = c.seq ∧ p'.replayer.err = none ∧
      log.crossing = c ∧ log.cursor = p'.replayer.cursor ∧
      c.decoded d.guest.compiled = some (.export c.name log.args log.results) ∧
      Conversed d.guest.compiled r (enterCall p.replayer) p'.replayer log.imports ∧
      p' = { p with
        replayer := p'.replayer, state := p'.state, calls := p.calls ++ [log] } := by
  obtain ⟨hcursor, hlt, t, sig, args, s, tr, got, st, ht, hsig, hargs, hrun, herr, hres, rfl⟩ :=
    callExport_ok h
  have hbound : (enterCall p.replayer).cursor ≤ r.crossings.length := by
    rw [enterCall, hcursor]
    exact hlt
  have herr₀ : (enterCall p.replayer).err = none := run_err hrun herr
  exact ⟨_, herr₀, hcursor, herr, rfl, rfl, decoded_export hkind ht hsig hargs hres,
    run_conversed hplans hbound hrun herr, rfl⟩

/-- **The step lemma.** -/
theorem callExport_faithful (hplans : planImports d.guest.compiled d.manifest = .ok d.plans)
    (hc : r.crossings[c.seq]? = some c) (hkind : c.kind = .export)
    (hp : Faithful d.guest.compiled r p) (h : d.callExport fuel r p c = some (.ok p')) :
    Faithful d.guest.compiled r p' := by
  obtain ⟨log, -, hcursor, herr, hlog, -, hdec, hconv, hp'⟩ :=
    callExport_conversed hplans hkind h
  have hevents : p'.events = p.events ++ log.events := by
    rw [hp']
    simp [Progress.events]
  have hexport : (BoundaryEvent.export c.name log.args log.results).uncheckable
      d.guest.compiled r = false := rfl
  have hle : c.seq + 1 ≤ p'.replayer.cursor := by
    have := hconv.le
    rwa [enterCall, hcursor] at this
  refine ⟨herr, hconv.bound, ?_, ?_⟩
  · -- the crossings below the new cursor are those below the old one, the call's own and
    -- the imports it consumed
    have hsplit : r.crossings.take p'.replayer.cursor =
        r.crossings.take c.seq ++ c :: slice r.crossings (c.seq + 1) p'.replayer.cursor := by
      rw [← slice_cons hle hc, ← slice_zero, ← slice_zero, slice_append (Nat.zero_le _)]
      omega
    have hconvEvents := hconv.events
    rw [enterCall, hcursor] at hconvEvents
    rw [hevents, checkable_append, List.map_append, hp.events, hcursor, hsplit, List.map_append,
      List.map_cons, hdec, ← hconvEvents, CallLog.events, hlog]
    simp [checkable, hexport]
  · rw [hevents, uncheckableCount_append, ← hp.unchecked, hconv.result, CallLog.events, hlog]
    simp [uncheckableCount, hexport, enterCall]

theorem passPoint_faithful {point : Nat} (hp : Faithful d.guest.compiled r p)
    (h : d.passPoint point p = .ok p') : Faithful d.guest.compiled r p' := by
  obtain ⟨rfl, -⟩ := passPoint_ok h
  exact ⟨hp.err, hp.bound, hp.events, hp.unchecked⟩

/-- **The run lemma.** -/
theorem driveCalls_faithful (hplans : planImports d.guest.compiled d.manifest = .ok d.plans)
    {cs : List Crossing} (hcs : ∀ c ∈ cs, r.crossings[c.seq]? = some c ∧ c.kind = .export)
    {point : Nat} (hp : Faithful d.guest.compiled r p)
    (h : d.driveCalls fuel r point p cs = some (.ok p')) : Faithful d.guest.compiled r p' := by
  induction cs generalizing point p with
  | nil => cases h; exact hp
  | cons c cs ih =>
    obtain ⟨p₁, hcall, hrest⟩ := driveCalls_cons_ok h
    obtain ⟨p₂, hexport, hpass⟩ := driveCall_ok hcall
    obtain ⟨hc, hkind⟩ := hcs c List.mem_cons_self
    have hp₂ := callExport_faithful hplans hc hkind hp hexport
    exact ih (fun c' hc' => hcs c' (List.mem_cons_of_mem _ hc')) (passPoint_faithful hp₂ hpass)
      hrest

end Driver

/-! ### Whole replays -/

theorem topLevelExports_getElem? {files : RecordingFiles} (hload : loadRecording files = .ok r) :
    ∀ c ∈ r.topLevelExports, r.crossings[c.seq]? = some c ∧ c.kind = .export := by
  intro c hc
  obtain ⟨hmem, htop⟩ := List.mem_filter.mp hc
  obtain ⟨i, hi⟩ := List.mem_iff_getElem?.mp hmem
  rw [Crossing.isTopLevelExport, decide_eq_true_eq] at htop
  rw [loadRecording_seq hload hi]
  exact ⟨hi, htop.1⟩

theorem replay_faithful {files : RecordingFiles} (hload : loadRecording files = .ok r)
    (htop : r.topLevelExports ≠ []) {guest : Guest σ κ} {opts : Options σ}
    (hfrom : opts.fromPoint = 0) (hto : opts.toPoint = 0) {fuel : Nat} {p : Progress σ}
    (h : replay fuel guest opts r = some (.ok p)) :
    Driver.Faithful guest.compiled r p ∧ p.replayer.cursor = r.crossings.length := by
  obtain ⟨d, p₀, p₁, hpre, hprep, -, hdrive, hcursor, rfl⟩ := (replay_whole_iff hfrom hto).mp h
  obtain ⟨rfl, -, -, -, hplans, -, -⟩ := precheck_ok hpre
  -- an error stashed while instantiating would have been reported by the first call
  have herr : p₀.replayer.err = none := by
    obtain ⟨c, cs, hcs⟩ := List.exists_cons_of_ne_nil htop
    rw [hcs] at hdrive
    obtain ⟨p₂, hcall, -⟩ := Driver.driveCalls_cons_ok hdrive
    obtain ⟨p₃, hexport, -⟩ := Driver.driveCall_ok hcall
    obtain ⟨-, hkind⟩ := topLevelExports_getElem? hload c (hcs ▸ List.mem_cons_self)
    obtain ⟨log, hnone, -⟩ := Driver.callExport_conversed hplans hkind hexport
    exact hnone
  have hp₀ := Driver.prepare_faithful hplans hprep herr
  have hstart : Driver.Faithful d.guest.compiled r
      { p₀ with points := p₀.points ++ [(0, p₀.state)] } :=
    ⟨hp₀.err, hp₀.bound, hp₀.events, hp₀.unchecked⟩
  have hfaithful := Driver.driveCalls_faithful hplans (topLevelExports_getElem? hload) hstart hdrive
  exact ⟨⟨hfaithful.err, hfaithful.bound, hfaithful.events, hfaithful.unchecked⟩, hcursor⟩

/-- **Replay soundness.** If a replay of a whole loaded recording with at least one exported
call returns no error, then the boundary events of the execution it drove, less the
uncheckable ones, are the crossings of the recording in order, decoded against the module's
signatures; and the uncheckable ones are counted exactly. -/
theorem replay_sound {files : RecordingFiles} {r : Recording}
    (hload : loadRecording files = .ok r) (htop : r.topLevelExports ≠ []) {guest : Guest σ κ}
    {opts : Options σ} (hfrom : opts.fromPoint = 0) (hto : opts.toPoint = 0) {fuel : Nat}
    {p : Progress σ} (h : replay fuel guest opts r = some (.ok p)) :
    (checkable guest.compiled r p.events).map some =
        r.crossings.map (Crossing.decoded guest.compiled) ∧
      r.crossings.map Crossing.seq = List.range r.crossings.length ∧
      p.replayer.result.uncheckedImportCalls = uncheckableCount guest.compiled r p.events := by
  obtain ⟨hfaithful, hfull⟩ := replay_faithful hload htop hfrom hto h
  refine ⟨?_, ?_, hfaithful.unchecked⟩
  · have hevents := hfaithful.events
    rw [hfull, List.take_length] at hevents
    exact hevents
  · refine List.ext_getElem? fun i => ?_
    rw [List.getElem?_map]
    cases hi : r.crossings[i]? with
    | none =>
      have hlen := List.getElem?_eq_none_iff.mp hi
      rw [Option.map_none, List.getElem?_eq_none (by rw [List.length_range]; exact hlen)]
    | some c =>
      have hlt := (List.getElem?_eq_some_iff.mp hi).1
      rw [Option.map_some, loadRecording_seq hload hi, List.getElem?_range hlt]

/-! ### A forwarder

A module with one import `env.g : () -> i32` whose export `f : () -> i32` returns what
the import answers, and the recording of one call of it in which the answer is `7`. -/

def forwarder : Compiled where
  importedFunctions := [⟨"env".toList, "g".toList, ⟨[], [.i32]⟩⟩]
  exportedFunctions := [("f".toList, ⟨[], [.i32]⟩)]
  imports_lt := by decide

def forwarderScript : Script forwarder where
  calls := [⟨[⟨⟨0, [], []⟩, ⟨_, rfl, rfl⟩⟩], [7], []⟩]

/-- A call of the only import. -/
def forwarderRequest : TypedRequest forwarder := ⟨⟨0, [], []⟩, ⟨_, rfl, rfl⟩⟩

def forwarderFiles : RecordingFiles where
  events := Json.encode <| String.toList <|
    "[\x7b\"Function\":\x7b\"name\":\"f\"\x7d\x7d,\x7b\"Call\":\x7b\x7d\x7d,
     \x7b\"VariableName\":\"import #0:ret0\"\x7d,
     \x7b\"Value\":\x7b\"value\":\x7b\"kind\":\"Int\",\"i\":\"7\"\x7d\x7d\x7d,
     \x7b\"VariableName\":\"f:ret0\"\x7d,
     \x7b\"Value\":\x7b\"variable_id\":1,\"value\":\x7b\"kind\":\"Int\",\"i\":\"7\"\x7d\x7d\x7d,
     \x7b\"Return\":\x7b\x7d\x7d]"

def forwarderRecording : Recording where
  crossings := [
    { seq := 0, depth := 0, kind := .export, name := "f".toList
      results := [⟨"Int".toList, "7".toList⟩], hasResults := true },
    { seq := 1, depth := 1, kind := .import, index := 0
      results := [⟨"Int".toList, "7".toList⟩], hasResults := true }]

theorem replay_sound_forwarder :
    loadRecording forwarderFiles = .ok forwarderRecording ∧
    ∃ p, replay 10 forwarderScript.guest {} forwarderRecording = some (.ok p) ∧
      (checkable forwarder forwarderRecording p.events).map some =
        forwarderRecording.crossings.map (Crossing.decoded forwarder) ∧
      forwarderRecording.crossings.map Crossing.seq = List.range 2 ∧
      p.replayer.result.uncheckedImportCalls =
        uncheckableCount forwarder forwarderRecording p.events := by
  have hload : loadRecording forwarderFiles = .ok forwarderRecording := by
    rw [forwarderFiles, String.toList_ofList]
    decide +kernel
  have hrun : returnsWith (fun _ => true)
      (replay 10 forwarderScript.guest {} forwarderRecording) = true := by
    decide +kernel
  obtain ⟨p, hp, -⟩ := returnsWith_iff.mp hrun
  exact ⟨hload, p, hp, replay_sound hload (by decide +kernel) rfl rfl hp⟩

end Boundarylog
