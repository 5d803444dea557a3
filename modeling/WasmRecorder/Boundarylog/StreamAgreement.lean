import WasmRecorder.Boundarylog.StreamReader

/-!
# Streaming and batch reading agree

The stream reader yields call groups; the batch reader parses the whole of `trace.json` and
reconstructs all crossings at once. On a well-formed document they agree, however the bytes
are cut into reads.

* `outcome_of_feed`, `outcome_of_error` — the outcome of a stream from the fate of its bytes.
* `nextGroup_agrees` — the groups a reader yields are the crossings of the batch parse.
-/

namespace Boundarylog

open Fallible Json Json.ArrayLexer

/-! ### Records and their texts -/

theorem pushRaw_of_renders {a : Assembler} {v : Json.Value} {t : Bytes} {ev : TraceEvent}
    (ht : Renders (.value v) t) (hev : TraceEvent.into {} v = .ok ev) :
    pushRaw a t = (a.push ev).mapError StreamError.assembly := by
  rw [pushRaw, unmarshal_of_renders ht, hev]
  dsimp only
  cases a.push ev <;> rfl

theorem feed_pushRaw {vs : List Json.Value} {ts : List Bytes} {events : List TraceEvent}
    (hts : List.Forall₂ (fun v t => Renders (.value v) t) vs ts)
    (hev : vs.mapM (TraceEvent.into {}) = .ok events) (a : Assembler) :
    feed pushRaw a ts = (feed Assembler.push a events).mapError StreamError.assembly := by
  induction hts generalizing events a with
  | nil =>
    cases hev
    rfl
  | cons ht _ ih =>
    rw [List.mapM_cons] at hev
    obtain ⟨ev, hhead, hev⟩ := bind_eq_ok.mp hev
    obtain ⟨evs, htail, hev⟩ := bind_eq_ok.mp hev
    cases hev
    have hpush := pushRaw_of_renders (a := a) ht hhead
    cases hout : a.push ev with
    | error e =>
      rw [hout] at hpush
      rw [feed_cons_of_error hpush, feed_cons_of_error hout]
      rfl
    | ok a' =>
      rw [hout] at hpush
      rw [feed_cons_of_ok hpush, feed_cons_of_ok hout, ih htail]

/-! ### The outcome from the fate of the bytes -/

theorem outcome_of_read {core core' : Core} {chunks : List Bytes}
    (h : feed Core.read core chunks = .ok core') :
    outcome core chunks = finishOutcome core'.1.1 core'.1.2 := by
  induction chunks generalizing core with
  | nil => cases h; rfl
  | cons chunk chunks ih =>
    obtain ⟨core₁, hread, hrest⟩ := feed_cons_ok h
    rw [outcome, hread]
    exact ih hrest

theorem outcome_of_failure {core core' : Core} {chunks rest : List Bytes} {chunk : Bytes}
    {e : StreamError} (h : feed Core.read core chunks = .ok core')
    (hfail : core'.read chunk = .error e) :
    outcome core (chunks ++ chunk :: rest) = (core'.1.2.groupList, .failed e) := by
  induction chunks generalizing core with
  | nil =>
    cases h
    rw [List.nil_append, outcome, hfail]
  | cons chunk' chunks ih =>
    obtain ⟨core₁, hread, hrest⟩ := feed_cons_ok h
    rw [List.cons_append, outcome, hread]
    exact ih hrest

theorem outcome_of_feed {st st' : Position × Assembler} {chunks : List Bytes}
    (hst : st.1 ≠ .after) (h : feed readByte st chunks.flatten = .ok st') :
    outcome (st, []) chunks = finishOutcome st'.1 st'.2 := by
  obtain ⟨unread, hread⟩ := readChunks_of_feed hst h
  exact outcome_of_read hread

theorem outcome_of_error {st : Position × Assembler} {chunks : List Bytes} {e : StreamError}
    (hst : st.1 ≠ .after) (h : feed readByte st chunks.flatten = .error e)
    (hscan : ∀ c, e ≠ .scan (.afterArray c)) : (outcome (st, []) chunks).2 = .failed e := by
  rcases feed_cases StreamError.scan pushRaw hst chunks.flatten with ⟨st₁, hrun, -⟩ |
    ⟨b₁, c, b₂, st₁, st₂, hflat, hrun, -, hc, hclosed⟩ |
    ⟨b₁, c, b₂, st₁, e', hflat, hrun, hopen, hc⟩
  · rw [h] at hrun
    cases hrun
  · rw [hflat, feed_append_of_ok hrun, feed_cons_of_ok hc] at h
    obtain ⟨c', hc'⟩ := feed_after_error hclosed h
    exact absurd hc' (hscan c')
  · rw [hflat, feed_append_of_ok hrun, feed_cons_of_error hc] at h
    cases h
    obtain ⟨st₀, chunk, rest, hsplit, -, hread, hfail⟩ := readChunks_error hflat hrun hopen hc
    rw [hsplit, outcome_of_failure hread hfail]

/-! ### Agreement -/

/-- **Streamed groups equal the batch parse under every chunking.** Take a document that is an
array of record objects, with any blanks, cut into any non-empty reads. If the batch parse
accepts the records, the reader yields non-empty groups whose concatenation is the batch
parse's crossings, and then the end of the stream; if it rejects them, the reader ends with
an error. -/
theorem nextGroup_agrees {chunks : List Bytes} {vs : List Json.Value} {events : List TraceEvent}
    (hdoc : RendersDoc (.array vs) chunks.flatten) (hobj : ∀ v ∈ vs, isObject v = true)
    (hevents : vs.mapM (TraceEvent.into {}) = .ok events) (hne : ∀ chunk ∈ chunks, chunk ≠ []) :
    (∀ crossings marked state, reconstructCrossings events = .ok (crossings, marked, state) →
      ∃ gs, Yields (.ofChunks chunks) gs .eof ∧ (∀ g ∈ gs, g ≠ []) ∧ gs.flatten = crossings) ∧
    (∀ e, reconstructCrossings events = .error e →
      ∃ gs e', Yields (.ofChunks chunks) gs (.failed e')) := by
  obtain ⟨ts, hts, hfeed⟩ := feed_document StreamError.scan pushRaw hdoc hobj
  have hyields := yields_ofChunks hne
  have hbefore : (Position.before, ({} : Assembler)).1 ≠ .after := fun h => by cases h
  have hrun := hfeed {}
  rw [feed_pushRaw hts hevents] at hrun
  constructor
  · intro crossings marked state hrec
    obtain ⟨a, a', ha, ha', rfl, -, -⟩ := reconstructCrossings_ok hrec
    have hinv := (Assembler.feed_evolves Assembler.inv_empty ha).inv
    rw [ha] at hrun
    have hout : outcome ((.before, {}), []) chunks = (a'.groupList, .eof) := by
      rw [outcome_of_feed hbefore hrun, finishOutcome, ha']
      rfl
    rw [hout] at hyields
    exact ⟨_, hyields, (Assembler.finish_evolves hinv ha').inv.groupList_ne_nil,
      Assembler.finish_flatten hinv ha'⟩
  · intro e hrec
    rw [reconstructCrossings] at hrec
    cases ha : feed Assembler.push {} events with
    | error e' =>
      rw [ha] at hrun
      have hout := outcome_of_error hbefore hrun fun _ h => by cases h
      rw [hout] at hyields
      exact ⟨_, _, hyields⟩
    | ok a =>
      rw [ha] at hrun hrec
      have hfin : ∃ e', a.finish = .error e' := by
        cases hfin : a.finish with
        | error e' => exact ⟨e', rfl⟩
        | ok a' =>
          change (a.finish >>= _) = _ at hrec
          rw [hfin] at hrec
          cases hrec
      obtain ⟨e', hfin⟩ := hfin
      have hout : ∃ e'', (outcome ((.before, {}), []) chunks).2 = .failed e'' := by
        rw [outcome_of_feed hbefore hrun, finishOutcome, hfin]
        dsimp only
        split_ifs
        · exact ⟨_, rfl⟩
        · exact ⟨_, rfl⟩
        · exact ⟨_, rfl⟩
      obtain ⟨e'', hout⟩ := hout
      rw [hout] at hyields
      exact ⟨_, _, hyields⟩

/-- One call of `f`, in two reads that cut a record. -/
def callChunks : List Bytes :=
  ["[\x7b\"Function\":\x7b\"name\":\"f\"\x7d\x7d,\x7b\"Ca",
    "ll\":\x7b\x7d\x7d , \x7b\"Return\":\x7b\x7d\x7d]\n"].map fun s => encode s.toList

/-- Does a document of objects tell of one call of `f` and nothing else? -/
def tellsCall : Option Json.Value → Bool
  | some (.array vs) => vs.all isObject && returnsWith
      (fun events => returnsWith
        (fun out => decide (out.1 = [{ seq := 0, depth := 0, kind := .export, name := "f".toList }]))
        (some (reconstructCrossings events)))
      (some (vs.mapM (TraceEvent.into {})))
  | _ => false

theorem nextGroup_agrees_callChunks :
    ∃ gs, Yields (.ofChunks callChunks) gs .eof ∧ (∀ g ∈ gs, g ≠ []) ∧
      gs.flatten = [{ seq := 0, depth := 0, kind := .export, name := "f".toList }] := by
  have hcheck : tellsCall (parse callChunks.flatten) = true := by decide +kernel
  rw [tellsCall.eq_def] at hcheck
  split at hcheck
  · next vs hparse =>
    rw [Bool.and_eq_true, List.all_eq_true] at hcheck
    obtain ⟨hobj, hcheck⟩ := hcheck
    obtain ⟨events, hevents, hcheck⟩ := returnsWith_iff.mp hcheck
    obtain ⟨⟨crossings, marked, state⟩, hrec, hcall⟩ := returnsWith_iff.mp hcheck
    obtain rfl := of_decide_eq_true hcall
    exact (nextGroup_agrees (parse_eq_some_iff.mp hparse) hobj (Option.some.inj hevents)
      (by decide +kernel)).1 _ _ _ (Option.some.inj hrec)
  · cases hcheck

end Boundarylog
