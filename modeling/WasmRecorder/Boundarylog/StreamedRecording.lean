import WasmRecorder.Boundarylog.StreamAgreement
import WasmRecorder.Boundarylog.StreamedHostState

/-!
# What arrives is what is loaded

A finished `trace.json` can be loaded whole, or read as a stream. `arrivals_of_load` says that
the two see the same crossings and the same host state; `load_of_arrivals` that a stream which
ends cleanly is a trace that can be loaded. `unmarshalEvents_cases` says how the two differ on a
document that is not an array of objects.
-/

namespace Boundarylog

open Fallible Json Json.ArrayLexer

/-- A document that is an array of objects. -/
def ArrayOfObjects (b : Bytes) (vs : List Json.Value) : Prop :=
  RendersDoc (.array vs) b ∧ ∀ v ∈ vs, isObject v = true

variable {b : Bytes} {vs : List Json.Value} {chunks : List Bytes} {events : List TraceEvent}

theorem ArrayOfObjects.unmarshalEvents (h : ArrayOfObjects b vs) :
    unmarshalEvents b = vs.mapM (TraceEvent.into {}) := by
  rw [Boundarylog.unmarshalEvents, unmarshal_of_doc h.1, intoSlice]
  cases vs.mapM (TraceEvent.into {}) <;> rfl

theorem feed_pushRaw_ok {ts : List Bytes} {a a' : Assembler}
    (hts : List.Forall₂ (fun v t => Renders (.value v) t) vs ts)
    (h : feed pushRaw a ts = .ok a') :
    ∃ events, vs.mapM (TraceEvent.into {}) = .ok events ∧
      feed Assembler.push a events = .ok a' := by
  induction hts generalizing a with
  | nil =>
    cases h
    exact ⟨[], rfl, rfl⟩
  | cons ht _ ih =>
    obtain ⟨a₁, hpush, hrest⟩ := feed_cons_ok h
    obtain ⟨ev, hev, hpush⟩ := pushRaw_ok hpush
    rw [unmarshal_of_renders ht] at hev
    obtain ⟨evs, hevs, hfeed⟩ := ih hrest
    refine ⟨ev :: evs, ?_, (feed_cons_of_ok hpush).trans hfeed⟩
    rw [List.mapM_cons, hev, hevs]
    rfl

theorem pushRaw_not_scan {a : Assembler} {raw : Bytes} {e : StreamError} {l : LexError}
    (h : pushRaw a raw = .error e) : e ≠ .scan l := by
  rintro rfl
  rw [pushRaw] at h
  split at h
  · cases h
  · split at h <;> cases h

theorem arrivals_final {core core' : Core} (n : Nat)
    (h : feed Core.read core chunks = .ok core') :
    (arrivals core n chunks).final = core'.1.2.hostState := by
  induction chunks generalizing core n with
  | nil => cases h; rfl
  | cons chunk chunks ih =>
    obtain ⟨core₁, hread, hrest⟩ := feed_cons_ok h
    rw [arrivals, hread]
    exact ih _ hrest

/-- What arrives at a fresh reader. -/
abbrev arrivalsOf (chunks : List Bytes) : Arrivals := arrivals ((.before, {}), []) 0 chunks

theorem arrivalsOf_outcome (chunks : List Bytes) :
    (arrivalsOf chunks).groups.map Prod.fst = (outcome ((.before, {}), []) chunks).1 ∧
      (arrivalsOf chunks).stop = (outcome ((.before, {}), []) chunks).2 :=
  arrivals_outcome chunks Assembler.inv_empty (Nat.zero_le _)

theorem before_ne_after {a : Assembler} : (Position.before, a).1 ≠ .after := nofun

/-- **The stream of a trace that can be loaded.** -/
theorem arrivals_of_load (hdoc : ArrayOfObjects chunks.flatten vs)
    (hevents : vs.mapM (TraceEvent.into {}) = .ok events) {a a' : Assembler}
    (ha : feed Assembler.push {} events = .ok a) (ha' : a.finish = .ok a') :
    (arrivalsOf chunks).groups.map Prod.fst = a'.groupList ∧ (arrivalsOf chunks).stop = .eof ∧
      (arrivalsOf chunks).final = a'.hostState := by
  obtain ⟨ts, hts, hfeed⟩ := feed_document StreamError.scan pushRaw hdoc.1 hdoc.2
  have hrun := hfeed {}
  rw [feed_pushRaw hts hevents, ha] at hrun
  have hout : outcome ((.before, {}), []) chunks = (a'.groupList, .eof) := by
    rw [outcome_of_feed before_ne_after hrun, finishOutcome, ha']
    rfl
  obtain ⟨hgroups, hstop⟩ := arrivalsOf_outcome chunks
  obtain ⟨unread, hread⟩ := readChunks_of_feed before_ne_after hrun
  rw [hgroups, hstop, hout, arrivalsOf, arrivals_final 0 hread, Assembler.finish_hostState ha']
  exact ⟨rfl, rfl, rfl⟩

/-- **A stream that ends cleanly can be loaded.** -/
theorem load_of_arrivals (hdoc : ArrayOfObjects chunks.flatten vs)
    (hstop : (arrivalsOf chunks).stop = .eof) :
    ∃ events a a', vs.mapM (TraceEvent.into {}) = .ok events ∧
      feed Assembler.push {} events = .ok a ∧ a.finish = .ok a' := by
  obtain ⟨ts, hts, hfeed⟩ := feed_document StreamError.scan pushRaw hdoc.1 hdoc.2
  have hrun := hfeed {}
  rw [(arrivalsOf_outcome chunks).2] at hstop
  cases hpush : feed pushRaw {} ts with
  | error e =>
    rw [hpush] at hrun
    obtain ⟨-, bad, -, a₁, -, -, hbad⟩ := feed_error_split hpush
    rw [outcome_of_error before_ne_after hrun fun c => pushRaw_not_scan hbad] at hstop
    cases hstop
  | ok a =>
    rw [hpush] at hrun
    obtain ⟨events, hevents, ha⟩ := feed_pushRaw_ok hts hpush
    rw [outcome_of_feed before_ne_after hrun, finishOutcome] at hstop
    cases hfin : a.finish with
    | ok a' => exact ⟨events, a, a', hevents, ha, hfin⟩
    | error e =>
      rw [hfin] at hstop
      exfalso
      dsimp only at hstop
      split_ifs at hstop

theorem leading_objects {vs : List Json.Value} {events : List TraceEvent}
    (h : vs.mapM (TraceEvent.into {}) = .ok events) :
    (∀ v ∈ vs, isObject v = true) ∨
      ∃ os rest, vs = os ++ .null :: rest ∧ ∀ v ∈ os, isObject v = true := by
  induction vs generalizing events with
  | nil => exact .inl nofun
  | cons v vs ih =>
    rw [List.mapM_cons] at h
    obtain ⟨ev, hhead, h⟩ := bind_eq_ok.mp h
    obtain ⟨evs, htail, -⟩ := bind_eq_ok.mp h
    rw [TraceEvent.into, intoStruct.eq_def] at hhead
    split at hhead
    · exact .inr ⟨[], vs, rfl, nofun⟩
    · next ms =>
      rcases ih htail with hall | ⟨os, rest, rfl, hos⟩
      · refine .inl fun v hv => ?_
        rcases List.mem_cons.mp hv with rfl | hv
        · rfl
        · exact hall v hv
      · refine .inr ⟨.object ms :: os, rest, rfl, fun v hv => ?_⟩
        rcases List.mem_cons.mp hv with rfl | hv
        · rfl
        · exact hos v hv
    · cases hhead

/-- A `trace.json` that can be unmarshalled is an array of objects, or has a `null` at which the
stream reader stops. -/
theorem unmarshalEvents_cases {d : Bytes} {events : List TraceEvent}
    (h : unmarshalEvents d = .ok events) :
    (∃ vs, ArrayOfObjects d vs ∧ vs.mapM (TraceEvent.into {}) = .ok events) ∨
      ∃ b₀ b' p l evs₀ evs₁, d = b₀ ++ nullByte :: b' ∧ events = evs₀ ++ evs₁ ∧
        feed readByte (.before, {}) b₀ =
          ((feed Assembler.push {} evs₀).mapError StreamError.assembly).map (fun a => (p, a)) ∧
        (∀ a, readByte (p, a) nullByte = .error (.scan l)) ∧ ∀ c, l ≠ .afterArray c := by
  rw [unmarshalEvents, unmarshal] at h
  cases hparse : parse d with
  | none =>
    rw [hparse] at h
    cases h
  | some v =>
    have hdoc := parse_eq_some_iff.mp hparse
    rw [hparse] at h
    dsimp only at h
    cases v with
    | null =>
      cases h
      obtain ⟨w₁, t, w₂, hw₁, ht, -, rfl⟩ := hdoc
      cases ht
      exact .inr ⟨w₁, nullLexeme.tail ++ w₂, .before, .notArray nullByte, [], [],
        List.append_assoc _ _ _, rfl, feed_blank_before hw₁, fun _ => rfl, fun _ h => by cases h⟩
    | array vs =>
      rw [intoSlice] at h
      cases hvs : vs.mapM (TraceEvent.into {}) with
      | error e =>
        rw [hvs] at h
        cases h
      | ok evs =>
        rw [hvs] at h
        cases h
        rcases leading_objects hvs with hobj | ⟨os, rest, rfl, hos⟩
        · exact .inl ⟨vs, ⟨hdoc, hobj⟩, hvs⟩
        · obtain ⟨b₀, b', ts, hd, hts, hrun⟩ :=
            feed_document_null StreamError.scan pushRaw hdoc hos
          rw [List.mapM_append] at hvs
          obtain ⟨evs₀, hevs₀, hvs⟩ := bind_eq_ok.mp hvs
          obtain ⟨evs₁, -, hvs⟩ := bind_eq_ok.mp hvs
          cases hvs
          refine .inr ⟨b₀, b', .between, .notObject nullByte, evs₀, evs₁, hd, rfl, ?_,
            fun _ => rfl, fun _ h => by cases h⟩
          rw [← feed_pushRaw hts hevs₀]
          exact hrun {}
    | _ => cases h

/-- A `trace.json` that can be unmarshalled and whose stream ends cleanly is an array of
objects: the stream reader takes no `null`. -/
theorem arrayOfObjects_of_eof {chunks : List Bytes} {events : List TraceEvent}
    (hevents : unmarshalEvents chunks.flatten = .ok events)
    (hstop : (arrivalsOf chunks).stop = .eof) :
    ∃ vs, ArrayOfObjects chunks.flatten vs ∧ vs.mapM (TraceEvent.into {}) = .ok events := by
  rcases unmarshalEvents_cases hevents with hobjects |
    ⟨b₀, b', p, l, evs₀, evs₁, hd, -, hfeed, hbad, hl⟩
  · exact hobjects
  · exfalso
    -- the stream ends at the `null`, or at a record before it that the assembler refuses
    obtain ⟨e, herr, hcause⟩ : ∃ e, feed readByte (.before, {}) chunks.flatten = .error e ∧
        ∀ c, e ≠ .scan (.afterArray c) := by
      rw [hd]
      cases ha : feed Assembler.push {} evs₀ with
      | error e =>
        rw [ha] at hfeed
        exact ⟨_, feed_append_of_error hfeed, nofun⟩
      | ok a =>
        rw [ha] at hfeed
        refine ⟨.scan l, ?_, fun c hc => hl c (StreamError.scan.inj hc)⟩
        rw [feed_append_of_ok hfeed, feed_cons_of_error (hbad a)]
    rw [(arrivalsOf_outcome chunks).2, outcome_of_error before_ne_after herr hcause] at hstop
    cases hstop

end Boundarylog
