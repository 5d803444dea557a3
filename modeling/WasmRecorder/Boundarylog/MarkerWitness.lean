import WasmRecorder.Boundarylog.DriverRuns
import WasmRecorder.Boundarylog.StreamedRecording

/-!
# The marker witness

Whether a recording's markers name its import edges decides how a call without values is
classified. The batch reader takes it from the records it has seen (`sawImportMarker`), the
streaming driver from the crossings it has taken in.

* `Session.driveArrivals_markers` — what the streaming driver accumulates over a whole stream.
* `markerWitness_agrees` — at the end of a complete stream the streaming driver holds the flag
  the batch reader derives from the whole document.
-/

namespace Boundarylog

open Fallible Json

/-! ### What a stream accumulates -/

variable {σ κ : Type}

theorem takeIn_markers (shared : Bool) (r : Recording) (x : Arrival) :
    (takeIn shared r x).markersIdentifyImports =
      (r.markersIdentifyImports || x.1.any Crossing.markerBracketed) := by
  rw [takeIn]
  split <;> rfl

theorem Session.driveArrivals_markers {s s' : Session σ κ} {fuel : Nat} {l : List Arrival}
    (h : s.driveArrivals fuel l = some (.ok s')) :
    s'.recording.markersIdentifyImports =
      (s.recording.markersIdentifyImports ||
        (l.map Prod.fst).flatten.any Crossing.markerBracketed) := by
  induction l generalizing s with
  | nil =>
    cases h
    exact (Bool.or_false _).symm
  | cons x l ih =>
    obtain ⟨s₁, hround, hrest⟩ := driveArrivals_cons_ok h
    obtain ⟨c, p, -, -, -, rfl⟩ := round_ok hround
    rw [ih hrest, List.map_cons, List.flatten_cons, List.any_append, takeIn_markers,
      Bool.or_assoc]

theorem Session.refresh_markers (streamed : Option HostState) (s : Session σ κ) :
    (s.refresh streamed).recording.markersIdentifyImports = s.recording.markersIdentifyImports := by
  rw [refresh_recording]
  split <;> rfl

theorem arrivals_markers {chunks : List Bytes} {sidecar : Option Bytes} {r : Recording}
    (hload : loadRecording ⟨chunks.flatten, sidecar⟩ = .ok r)
    (hstop : (arrivalsOf chunks).stop = .eof) :
    ((arrivalsOf chunks).groups.map Prod.fst).flatten.any Crossing.markerBracketed =
      r.markersIdentifyImports := by
  obtain ⟨-, events, streamed, -, hevents, hrec, -⟩ := loadRecording_ok hload
  obtain ⟨vs, hdoc, hvs⟩ := arrayOfObjects_of_eof hevents hstop
  rw [reconstructCrossings_marked hrec]
  obtain ⟨a, a', ha, ha', hcs, -, -⟩ := reconstructCrossings_ok hrec
  have hinv := (Assembler.feed_evolves Assembler.inv_empty ha).inv
  rw [(arrivals_of_load hdoc hvs ha ha').1, Assembler.finish_flatten hinv ha', hcs]

theorem NextError.ending_none {e : NextError} (h : e.ending = .ok none) : e = .eof := by
  cases e with
  | eof => rfl
  | failed e =>
    cases e with
    | truncation t => cases h
    | _ => cases h

/-- **The marker witness is the same for both readers.** The batch reader's witness is set
exactly when a crossing it recovers is bracketed by markers. So, over a complete stream of a
document that can be loaded, the streaming driver accumulates from the groups it is handed
the flag that is loaded: when it has driven the last group, and in what it reports. -/
theorem markerWitness_agrees :
    (∀ events crossings marked state,
      reconstructCrossings events = .ok (crossings, marked, state) →
        (marked = true ↔ ∃ c ∈ crossings, c.markerBracketed = true)) ∧
    ∀ (chunks : List Bytes) (sidecar : Option Bytes) (r r₀ : Recording),
      (∀ chunk ∈ chunks, chunk ≠ []) → loadRecording ⟨chunks.flatten, sidecar⟩ = .ok r →
      r₀.markersIdentifyImports = false →
      (∀ (l : List Arrival) (t : StreamReader) (s s' : Session σ κ) (fuel : Nat),
        Arrives (.ofChunks chunks) l .eof t → s.recording = r₀ →
        s.driveArrivals fuel l = some (.ok s') →
        s'.recording.markersIdentifyImports = r.markersIdentifyImports) ∧
      ∀ (rounds fuel : Nat) (guest : Guest σ κ) (opts : Options σ) (out : StreamResult σ),
        streamingReplay rounds fuel guest opts r₀ (.ofChunks chunks) = some (.ok out) →
        out.truncation = none →
        out.recording.markersIdentifyImports = r.markersIdentifyImports := by
  refine ⟨fun events crossings marked state h => ?_, ?_⟩
  · rw [reconstructCrossings_marked h, List.any_eq_true]
  intro chunks sidecar r r₀ hne hload hr₀
  obtain ⟨u, harr, -⟩ := arrives_ofChunks hne
  constructor
  · intro l t s s' fuel hl hs hdrive
    obtain ⟨hgroups, hstop⟩ := harr.yields.unique hl.yields
    rw [Session.driveArrivals_markers hdrive, hs, hr₀, Bool.false_or, ← hgroups]
    exact arrivals_markers hload hstop
  · intro rounds fuel guest opts out hrun htrunc
    obtain ⟨-, -, s₀, s', truncation, hprep, hdrive, hend, hfin⟩ :=
      (streamingReplay_iff harr).mp ⟨rounds, hrun⟩
    obtain ⟨state, plans, p₀, p, -, -, -, -, rfl⟩ := prepareOnce_ok hprep
    obtain ⟨rfl, -, -⟩ := Session.finish_ok hfin
    dsimp only at htrunc ⊢
    rw [htrunc] at hend
    rw [Session.refresh_markers, Session.driveArrivals_markers hdrive, hr₀, Bool.false_or]
    exact arrivals_markers hload (NextError.ending_none hend)

/-- A module that exports `f`, which calls its one import, neither with any value. -/
def pingerCompiled : Compiled where
  importedFunctions := [⟨"env".toList, "ping".toList, ⟨[], []⟩⟩]
  exportedFunctions := [("f".toList, ⟨[], []⟩)]
  imports_lt := by decide

def pinger : Script pingerCompiled where
  calls := [⟨[⟨⟨0, [], []⟩, _, rfl, rfl⟩], [], []⟩]

/-- One call of `f`. Only the markers tell of the import. -/
def pingedChunks : List Bytes := List.singleton <| Json.encode <| String.toList <|
  "[\x7b\"Function\":\x7b\"name\":\"f\"\x7d\x7d,\x7b\"Call\":\x7b\x7d\x7d,
   \x7b\"Event\":\x7b\"kind\":12,
   \"metadata\":\"\x7b\\\"boundary_id\\\":\\\"js-wasm-realm\\\",\\\"direction\\\":\\\"recv\\\",\\\"show_value\\\":\\\"wasm import #0\\\"\x7d\"\x7d\x7d,
   \x7b\"Event\":\x7b\"kind\":12,
   \"metadata\":\"\x7b\\\"boundary_id\\\":\\\"js-wasm-realm\\\",\\\"direction\\\":\\\"send\\\",\\\"show_value\\\":\\\"wasm import #0\\\"\x7d\"\x7d\x7d,
   \x7b\"Return\":\x7b\x7d\x7d]"

theorem markerWitness_agrees_pinged :
    ∃ (r : Recording) (out : StreamResult Nat),
      loadRecording ⟨pingedChunks.flatten, none⟩ = .ok r ∧ r.markersIdentifyImports = true ∧
      (∃ c ∈ r.crossings, c.markerBracketed = true) ∧
      streamingReplay 10 10 pinger.guest {} {} (.ofChunks pingedChunks) = some (.ok out) ∧
      out.recording.markersIdentifyImports = r.markersIdentifyImports := by
  have hload : returnsWith Recording.markersIdentifyImports
      (some (loadRecording ⟨pingedChunks.flatten, none⟩)) = true := by
    rw [pingedChunks, String.toList_ofList]
    decide +kernel
  have hrun : returnsWith (fun out => decide (out.truncation = none))
      (streamingReplay 10 10 pinger.guest {} {} (.ofChunks pingedChunks)) = true := by
    rw [pingedChunks, String.toList_ofList]
    decide +kernel
  have hne : ∀ chunk ∈ pingedChunks, chunk ≠ [] := by
    rw [pingedChunks, String.toList_ofList]
    decide +kernel
  obtain ⟨r, hr, hmarked⟩ := returnsWith_iff.mp hload
  obtain ⟨out, hout, htr⟩ := returnsWith_iff.mp hrun
  have hr := Option.some.inj hr
  obtain ⟨sidecar, events, streamed, -, -, hrec, -⟩ := loadRecording_ok hr
  have hagree := @markerWitness_agrees Nat (List (TypedRequest pingerCompiled) × Halt Nat)
  have hsame := (hagree.2 pingedChunks none r {} hne hr rfl).2 10 10 pinger.guest
    {} out hout (of_decide_eq_true htr)
  exact ⟨r, out, hr, hmarked, (hagree.1 _ _ _ _ hrec).mp hmarked, hout, hsame⟩

end Boundarylog
