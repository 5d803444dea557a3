import WasmRecorder.Boundarylog.HostStateAgreement

/-!
# The cursor of a streaming replay

A module that stops calling out earlier than it did when it was recorded leaves import
crossings unconsumed. The drivers notice when they come to the next exported call, or at the
end of a replay that covers the whole recording: each call is entered with the cursor at its own
crossing.

* `Chain` — calls driven one after the other, with the crossings they consumed.
* `stream_chain` — the calls of a streaming replay are one, through what the stream held.
* `stream_tiled` — a complete stream leaves no crossing over.
-/

namespace Boundarylog

open Fallible Json Slice

/-! ### The cursor along driven calls -/

/-- Calls driven one after the other: each is entered with the cursor at its own crossing and
leaves it behind the imports it consumed. -/
inductive Chain (crossings : List Crossing) : Nat → List CallLog → Nat → Prop
  | nil (n : Nat) : Chain crossings n [] n
  | cons {l : CallLog} {logs : List CallLog} {n : Nat} (hlt : l.crossing.seq < l.cursor)
      (hbound : l.cursor ≤ crossings.length)
      (himports : ∀ c ∈ slice crossings (l.crossing.seq + 1) l.cursor, c.kind = .import)
      (hrest : Chain crossings l.cursor logs n) : Chain crossings l.crossing.seq (l :: logs) n

theorem Chain.mono {cs cs' : List Crossing} {n m : Nat} {logs : List CallLog}
    (h : Chain cs n logs m) (hpre : cs <+: cs') : Chain cs' n logs m := by
  induction h with
  | nil n => exact .nil n
  | cons hlt hbound himports _ ih =>
    have htake : cs'.take cs.length = cs.take cs.length := by
      rw [List.take_length]
      exact (List.prefix_iff_eq_take.mp hpre).symm
    refine .cons hlt (hbound.trans hpre.length_le) ?_ ih
    rw [slice_congr htake hbound]
    exact himports

theorem Chain.append {cs : List Crossing} {n m k : Nat} {logs logs' : List CallLog}
    (h : Chain cs n logs m) (h' : Chain cs m logs' k) : Chain cs n (logs ++ logs') k := by
  induction h with
  | nil n => exact h'
  | cons hlt hbound himports _ ih => exact .cons hlt hbound himports (ih h')

/-- The stretches of the calls follow each other. -/
theorem Chain.tiles {cs : List Crossing} {n m : Nat} {logs : List CallLog} (h : Chain cs n logs m) :
    n ≤ m ∧ (logs.map fun l => slice cs l.crossing.seq l.cursor).flatten = slice cs n m ∧
      ∀ l ∈ logs, ∀ c ∈ slice cs (l.crossing.seq + 1) l.cursor, c.kind = .import := by
  induction h with
  | nil n => exact ⟨le_rfl, (slice_self cs n).symm, List.forall_mem_nil _⟩
  | cons hlt _ himports _ ih =>
    obtain ⟨hle, htiles, hrest⟩ := ih
    refine ⟨hlt.le.trans hle, ?_, List.forall_mem_cons.mpr ⟨himports, hrest⟩⟩
    rw [List.map_cons, List.flatten_cons, htiles, slice_append hlt.le hle]

variable {σ κ : Type}

namespace Driver

variable {d : Driver σ κ} {fuel point : Nat} {r : Recording} {p p' : Progress σ} {c : Crossing}
  {cs : List Crossing}

theorem driveCall_link (hplans : planImports d.guest.compiled d.manifest = .ok d.plans)
    (hkind : c.kind = .export) (h : d.driveCall fuel r point p c = some (.ok p')) :
    ∃ log, p'.calls = p.calls ++ [log] ∧ log.crossing = c ∧
      Chain r.crossings p.replayer.cursor [log] p'.replayer.cursor := by
  obtain ⟨p₁, hcall, hpass⟩ := driveCall_ok h
  obtain ⟨log, -, hcursor, -, rfl, hlog, -, hconv, hp₁⟩ := callExport_conversed hplans hkind hcall
  obtain ⟨rfl, -⟩ := passPoint_ok hpass
  obtain ⟨hle, hbound, himports, -, -⟩ := hconv
  rw [enterCall, hcursor, ← hlog] at hle himports
  rw [← hlog] at hbound
  refine ⟨log, by rw [hp₁], rfl, ?_⟩
  dsimp only
  rw [hcursor, ← hlog]
  exact .cons hle hbound himports (.nil _)

end Driver

/-- **The calls of a streaming replay form a chain**, in whatever recording the groups begin. -/
theorem Session.driveArrivals_chain {s s' : Session σ κ} {fuel : Nat} {l : List Arrival}
    {F : List Crossing} (hplans : planImports s.driver.guest.compiled s.driver.manifest =
      .ok s.driver.plans)
    (hseen : ∀ R ∈ seen s.shared s.recording l, R.crossings <+: F)
    (h : s.driveArrivals fuel l = some (.ok s')) :
    ∃ cs logs, s.Ran s' l cs ∧ s'.progress.calls = s.progress.calls ++ logs ∧
      logs.map CallLog.crossing = cs ∧
      Chain F s.progress.replayer.cursor logs s'.progress.replayer.cursor := by
  induction l generalizing s with
  | nil =>
    cases h
    exact ⟨[], [], .nil _, (List.append_nil _).symm, rfl, .nil _⟩
  | cons x l ih =>
    obtain ⟨s₁, hround, hrest⟩ := driveArrivals_cons_ok h
    obtain ⟨c, p, hdriv, hcheck, hdrive, rfl⟩ := round_ok hround
    have hkind : c.kind = .export := by
      have htop := hdriv.top
      rw [Crossing.isTopLevelExport, decide_eq_true_eq] at htop
      exact htop.1
    have hseen' := List.forall_mem_cons.mp hseen
    obtain ⟨log, hlog, rfl, hlink⟩ := Driver.driveCall_link hplans hkind hdrive
    obtain ⟨cs, logs, hran, hlogs, rfl, hchain⟩ := ih (s := { s with
      recording := takeIn s.shared s.recording x, progress := p, point := s.point + 1 })
      hplans hseen'.2 hrest
    refine ⟨_, log :: logs, hran.cons hdriv hcheck, ?_, rfl, (hlink.mono hseen'.1).append hchain⟩
    rw [hlogs, hlog, List.append_assoc, List.singleton_append]

/-! ### Streaming replays -/

section

variable {guest : Guest σ κ} {opts : Options σ} {rounds fuel : Nat} {r : Recording}
  {chunks : List Bytes} {out : StreamResult σ}

theorem stream_chain (hne : ∀ chunk ∈ chunks, chunk ≠ [])
    (hrun : streamingReplay rounds fuel guest opts r (.ofChunks chunks) = some (.ok out)) :
    ∃ n, Chain out.recording.crossings n out.progress.calls out.progress.replayer.cursor ∧
      out.progress.calls.map CallLog.crossing = out.recording.topLevelExports ∧
      out.recording.crossings = ((arrivalsOf chunks).groups.map Prod.fst).flatten ∧
      Calls 0 ((arrivalsOf chunks).groups.map Prod.fst) out.recording.topLevelExports ∧
      (arrivalsOf chunks).stop.ending = .ok out.truncation ∧
      (out.truncation = none → out.progress.replayer.cursor = out.recording.crossings.length) := by
  obtain ⟨t, harr, -⟩ := arrives_ofChunks hne
  obtain ⟨hcs, -, s₀, s', truncation, hprep, hdrive, hend, hfin⟩ :=
    (streamingReplay_iff harr).mp ⟨rounds, hrun⟩
  obtain ⟨-, -, hd, -, -, -, hrec₀, -, -, p₀, hp₀, hprog, -⟩ := prepareOnce_session hprep
  have hstart : s₀.recording.crossings = [] := by rw [hrec₀, hcs]
  have hcalls₀ : s₀.progress.calls = [] := by
    obtain ⟨-, w, s, tr, res, st, w', -, -, -, rfl⟩ := Driver.prepare_ok hp₀
    rw [hprog]
  obtain ⟨cs, logs, hran, hlogs, hmap, hchain⟩ := Session.driveArrivals_chain hd.planned
    (fun R hR => seen_prefix hR) hdrive
  rw [hcalls₀, List.nil_append] at hlogs
  rw [hstart, List.nil_append] at hchain
  have hcalls := hran.calls
  rw [hstart, List.length_nil] at hcalls
  have hcrossings : s'.recording.crossings = ((arrivalsOf chunks).groups.map Prod.fst).flatten := by
    rw [hran.recording, seen_last, hstart, List.nil_append]
  have hrefresh : (s'.refresh t.asm.hostState).recording.crossings = s'.recording.crossings := by
    rw [Session.refresh_recording]
    split <;> rfl
  obtain ⟨hout, -, hcursor⟩ := Session.finish_ok hfin
  have hprogress := (Session.refresh_rest t.asm.hostState s').2.1
  rw [hprogress] at hcursor
  have hrec : out.recording.crossings = s'.recording.crossings := by rw [hout]; exact hrefresh
  have htop : out.recording.topLevelExports = cs := by
    rw [Recording.topLevelExports, hrec, hcrossings, hcalls.exports.1]
  have hcur : out.progress.replayer.cursor = s'.progress.replayer.cursor := by
    rw [hout, hprogress]
  have hlog : out.progress.calls = logs := by rw [hout, hprogress, hlogs]
  have hending : (arrivalsOf chunks).stop.ending = .ok out.truncation := by
    rw [hout]
    exact hend
  refine ⟨s₀.progress.replayer.cursor, ?_, ?_, hrec.trans hcrossings, htop ▸ hcalls, hending, ?_⟩
  · rw [hrec, hcrossings, hlog, hcur]
    exact hchain
  · rw [hlog, hmap, htop]
  · intro hnone
    rw [hcur, hrec, ← hrefresh]
    refine hcursor ?_
    rw [hout] at hnone
    exact hnone

/-- The trace of the two calls of the forwarder, in one read. -/
def forwardedChunks : List Bytes := List.singleton <| Json.encode <| String.toList <|
  "[\x7b\"Function\":\x7b\"name\":\"f\"\x7d\x7d,\x7b\"Call\":\x7b\x7d\x7d,
   \x7b\"VariableName\":\"import #0:ret0\"\x7d,
   \x7b\"Value\":\x7b\"value\":\x7b\"kind\":\"Int\",\"i\":\"7\"\x7d\x7d\x7d,
   \x7b\"VariableName\":\"f:ret0\"\x7d,
   \x7b\"Value\":\x7b\"variable_id\":1,\"value\":\x7b\"kind\":\"Int\",\"i\":\"7\"\x7d\x7d\x7d,
   \x7b\"Return\":\x7b\x7d\x7d,\x7b\"Call\":\x7b\x7d\x7d,
   \x7b\"Value\":\x7b\"value\":\x7b\"kind\":\"Int\",\"i\":\"8\"\x7d\x7d\x7d,
   \x7b\"Value\":\x7b\"variable_id\":1,\"value\":\x7b\"kind\":\"Int\",\"i\":\"8\"\x7d\x7d\x7d,
   \x7b\"Return\":\x7b\x7d\x7d]"

/-- **A complete stream leaves nothing over.** The stretches of crossings that the calls of an
accepted stream consumed make up the recording: each begins with one of the top-level exports, in
their order, and goes on with imports. -/
theorem stream_tiled (hne : ∀ chunk ∈ chunks, chunk ≠ [])
    (hrun : streamingReplay rounds fuel guest opts r (.ofChunks chunks) = some (.ok out))
    (htr : out.truncation = none) :
    out.progress.calls.map CallLog.crossing = out.recording.topLevelExports ∧
    (out.progress.calls.map fun l =>
      slice out.recording.crossings l.crossing.seq l.cursor).flatten = out.recording.crossings ∧
    ∀ l ∈ out.progress.calls, ∀ c ∈ slice out.recording.crossings (l.crossing.seq + 1) l.cursor,
      c.kind = .import := by
  obtain ⟨n, hchain, hcalls, hgroups, hdrivable, -, hend⟩ := stream_chain hne hrun
  obtain ⟨-, htiles, himports⟩ := hchain.tiles
  refine ⟨hcalls, ?_, himports⟩
  rw [htiles, hend htr, slice, List.take_length]
  -- the first call is the first crossing
  rw [← hcalls] at hdrivable
  generalize out.progress.calls = logs at hchain hdrivable
  generalize (arrivalsOf chunks).groups.map Prod.fst = groups at hgroups hdrivable
  cases hchain with
  | nil =>
    cases hdrivable
    rw [hgroups]
    exact List.drop_nil
  | cons =>
    cases hdrivable with
    | cons hg _ =>
      obtain ⟨_, rfl, -⟩ := hg.imports
      rw [hg.numbered 0 _ rfl]
      rfl

theorem stream_tiled_forwarded : ∃ out : StreamResult Nat,
    streamingReplay 10 10 forwarderTwiceScript.guest {} {} (.ofChunks forwardedChunks) =
      some (.ok out) ∧ out.progress.calls.map CallLog.crossing = out.recording.topLevelExports ∧
      (out.progress.calls.map fun l =>
        slice out.recording.crossings l.crossing.seq l.cursor).flatten = out.recording.crossings ∧
      ∀ l ∈ out.progress.calls, ∀ c ∈ slice out.recording.crossings (l.crossing.seq + 1) l.cursor,
        c.kind = .import := by
  have hrun : returnsWith (fun out => out.truncation.isNone)
      (streamingReplay 10 10 forwarderTwiceScript.guest {} {} (.ofChunks forwardedChunks)) =
        true := by
    rw [forwardedChunks, String.toList_ofList]
    decide +kernel
  obtain ⟨out, hout, htr⟩ := returnsWith_iff.mp hrun
  have hne : ∀ chunk ∈ forwardedChunks, chunk ≠ [] := by
    rw [forwardedChunks, String.toList_ofList]
    decide +kernel
  exact ⟨out, hout, stream_tiled hne hout (Option.isNone_iff_eq_none.mp htr)⟩

end

end Boundarylog
