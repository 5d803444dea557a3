import WasmRecorder.Boundarylog.DriverRuns
import WasmRecorder.Boundarylog.HostMutations
import WasmRecorder.Boundarylog.StreamedRecording

/-!
# Two carriers of the host state

A recording's host state comes in the stream, in a sidecar, or in both. The batch reader
reconciles the two once everything has been read. The streaming driver does so when it
instantiates the module: before the first byte, unless the module imports a memory that the
sidecar does not describe.

* `StreamApplies` — what a streaming replay applied: the world its module was instantiated in, and
  the writes that its stubs made while they serviced import calls.
* `CarriedInTime` — what the stream adds to the sidecar is nothing new, or arrives in time.
* `streamApplies_iff` — **when an accepted complete stream applied what loading the recording
  reconciles**.
-/

namespace Boundarylog

open Fallible Json Slice

/-! ### What a replay applies -/

def initialMemories (h : Option HostState) : List ImportedMemory :=
  ((h.map HostState.memoryList).getD []).map fun m => { m with data := some (m.data.getD []) }

def initialGlobals (h : Option HostState) : List ImportedGlobal :=
  (h.map HostState.globalList).getD []

/-- The writes a host state holds for the import calls among some crossings. -/
def importWrites (h : Option HostState) (cs : List Crossing) : List (Nat × List HostWrite) :=
  (cs.filter fun c => c.kind = .import).map fun c => (c.seq, mutationWrites h c.seq)

/-- What a replay takes from a host state. -/
structure AppliedState where
  memories : List ImportedMemory
  globals : List ImportedGlobal
  /-- For each import crossing the writes made before its results are returned. -/
  writes : List (Nat × List HostWrite)
  deriving DecidableEq, Repr

/-- What a replay of a recording applies. -/
def Recording.applied (r : Recording) : AppliedState :=
  ⟨initialMemories r.hostState, initialGlobals r.hostState, importWrites r.hostState r.crossings⟩

/-! ### The world at the start -/

/-- The world has these memories, zeroed, and these globals. -/
structure World.Supplies (w : World) (memories : List ImportedMemory)
    (globals : List ImportedGlobal) : Prop where
  memory : ∀ m ∈ memories, ∃ x, m.build = .ok x ∧ w.memory m.moduleName m.name = some x
  global : ∀ g ∈ globals, ∃ x, g.build = .ok x ∧ w.global g.moduleName g.name = some x

/-- The writes that give memories their contents. -/
def contents (memories : List ImportedMemory) : List HostWrite :=
  memories.flatMap fun m => (m.data.getD []).map fun d =>
    .memory m.moduleName m.name d.offset d.bytesB64

theorem contents_initialMemories (h : Option HostState) :
    contents (initialMemories h) = (h.map HostState.initialWrites).getD [] := by
  cases h with
  | none => rfl
  | some h => exact List.flatMap_map _ _ _

theorem ImportedMemory.build_some_data (m : ImportedMemory) :
    { m with data := some (m.data.getD []) }.build = m.build := by
  obtain ⟨moduleName, name, minPages, maxPages, data⟩ := m
  cases data <;> rfl

/-- A provider has everything it is to supply. -/
theorem ProviderSpec.build_supplies {p : ProviderSpec} {x : Provider} (h : p.build = .ok x) :
    (∀ m ∈ p.memories, ∃ y, m.build = .ok y ∧ x.memories.lookup m.name = some y) ∧
      ∀ g ∈ p.globals, ∃ y, g.build = .ok y ∧ x.globals.lookup g.name = some y := by
  rw [build] at h
  obtain ⟨memories, hmemories, h⟩ := bind_eq_ok.mp h
  obtain ⟨globals, hglobals, h⟩ := bind_eq_ok.mp h
  obtain ⟨hmemories, hmemory⟩ := lookup_of_mapM_eq_ok hmemories
  obtain ⟨hglobals, hglobal⟩ := lookup_of_mapM_eq_ok hglobals
  dsimp only at h
  split_ifs at h
  · cases h
  split at h
  · cases h
  next hnone =>
  cases h
  -- no two exports have one name
  have hnodup : (p.functions ++ memories.map Prod.fst ++ globals.map Prod.fst).Nodup := by
    refine List.nodup_iff_count_le_one.mpr fun name => ?_
    by_cases hmem : name ∈ p.functions ++ memories.map Prod.fst ++ globals.map Prod.fst
    · exact not_lt.mp fun hlt => List.find?_eq_none.mp hnone name hmem (decide_eq_true hlt)
    · rw [List.count_eq_zero_of_not_mem hmem]
      exact Nat.zero_le 1
  exact ⟨hmemory (hmemories ▸ hnodup.of_append_left.of_append_right),
    hglobal (hglobals ▸ hnodup.of_append_right)⟩

/-- The providers of a host state have its memories and globals. -/
theorem World.build_supplies {h : Option HostState} {functions : List (Text × Text)} {w : World}
    (hbuild : World.build h functions = .ok w) :
    w.Supplies (initialMemories h) (initialGlobals h) := by
  have hnames : ((providerModules h functions).map ProviderSpec.moduleName).Nodup := by
    rw [providerModules, List.map_map]
    exact (List.map_id _).symm ▸ List.nodup_dedup _
  obtain ⟨-, hlookup⟩ := lookup_of_mapM_eq_ok hbuild
  have hspec (n : Text) (hn : n ∈ ((h.map HostState.memoryList).getD []).map
      ImportedMemory.moduleName ++ (initialGlobals h).map ImportedGlobal.moduleName) :
      ∃ (p : ProviderSpec) (x : Provider), p.build = .ok x ∧ w.lookup n = some x ∧
        p.memories = ((h.map HostState.memoryList).getD []).filter (·.moduleName = n) ∧
        p.globals = (initialGlobals h).filter (·.moduleName = n) := by
    obtain ⟨x, hx, hlook⟩ := hlookup hnames _ (List.mem_map_of_mem (List.mem_dedup.mpr hn))
    exact ⟨_, x, hx, hlook, rfl, rfl⟩
  constructor
  · intro m' hm'
    obtain ⟨m, hm, rfl⟩ := List.mem_map.mp hm'
    obtain ⟨p, x, hx, hlook, hmemories, -⟩ := hspec m.moduleName
      (List.mem_append_left _ (List.mem_map_of_mem hm))
    obtain ⟨y, hy, hfound⟩ := (ProviderSpec.build_supplies hx).1 m
      (hmemories ▸ List.mem_filter.mpr ⟨hm, decide_eq_true rfl⟩)
    exact ⟨y, m.build_some_data ▸ hy, by rw [World.memory, hlook]; exact hfound⟩
  · intro g hg
    obtain ⟨p, x, hx, hlook, -, hglobals⟩ := hspec g.moduleName
      (List.mem_append_right _ (List.mem_map_of_mem hg))
    obtain ⟨y, hy, hfound⟩ := (ProviderSpec.build_supplies hx).2 g
      (hglobals ▸ List.mem_filter.mpr ⟨hg, decide_eq_true rfl⟩)
    exact ⟨y, hy, by rw [World.global, hlook]; exact hfound⟩

variable {σ κ : Type}

/-- The module was instantiated in a world with the memories and globals of the host state that the
driver held, and once it had been, their contents were written. -/
structure Begins (fuel : Nat) (s : Session σ κ) (memories : List ImportedMemory)
    (globals : List ImportedGlobal) : Prop where
  held : initialMemories s.recording.hostState = memories ∧
    initialGlobals s.recording.hostState = globals
  world : ∃ w replayer tr results st,
    instantiateHostModules s.driver.plans s.recording.hostState = .ok w ∧
    w.Supplies memories globals ∧
    s.driver.run fuel s.recording {} (s.driver.guest.instantiate w) =
      some (replayer, tr, .returned results st) ∧
    st.world.applyAll HostWrite.apply (contents memories) = (s.progress.state.world, none)

/-! ### The writes of the stubs -/

/-- The import calls at which mutations were applied while groups were driven, each with the host
state that the driver held: that of the recording which its group completes. -/
def streamServicings (plans : List ImportPlan) (deferred shared : Bool) :
    Recording → Replayer → List Arrival → List CallLog → List (Option HostState × Servicing)
  | r, s, x :: l, log :: logs =>
    let r' := takeIn shared r x
    (servicings plans deferred r' (Driver.enterCall s) log.imports).map (r'.hostState, ·) ++
      streamServicings plans deferred shared r'
        (replayerAfter plans deferred r' (Driver.enterCall s) log.imports) l logs
  | _, _, _, _ => []

/-- In answer to each call of the log the writes that the driver held for its crossing were made,
and these are the writes. -/
structure Serves (log : List (Option HostState × Servicing)) (writes : List (Nat × List HostWrite)) :
    Prop where
  held : log.map (fun e => (e.2.crossing.seq, mutationWrites e.1 e.2.crossing.seq)) = writes
  made : ∀ e ∈ log, e.2.request.world.applyAll HostWrite.apply
    (mutationWrites e.1 e.2.crossing.seq) = (e.2.answer.world, none)

/-- The host state that the stream has carried when the module is instantiated. -/
def startState (compiled : Compiled) (sidecar : Option HostState) (arr : Arrivals) :
    Option HostState :=
  if undescribedImportedMemory compiled sidecar = none then none
  else (arr.groups.head?.map Prod.snd).getD arr.final

theorem streamedAtStart_ofChunks {guest : Guest σ κ} {r : Recording} {chunks : List Bytes}
    {t : StreamReader} (ht : t.asm.hostState = (arrivalsOf chunks).final) :
    streamedAtStart guest r (.ofChunks chunks) t (arrivalsOf chunks).groups =
      startState guest.compiled r.hostState (arrivalsOf chunks) := by
  rw [streamedAtStart, startState, ht]
  rfl

/-- The streaming replay of a stream instantiates its module with the memories and globals of
`applied`, drives the groups, and makes the writes of `applied` while it does. -/
def StreamApplies (fuel : Nat) (guest : Guest σ κ) (opts : Options σ) (r : Recording)
    (chunks : List Bytes) (applied : AppliedState) : Prop :=
  ∃ s₀ s', prepareOnce fuel guest opts
      (startState guest.compiled r.hostState (arrivalsOf chunks)) (.waiting r) = some (.ok s₀) ∧
    s₀.driveArrivals fuel (arrivalsOf chunks).groups = some (.ok s') ∧
    Begins fuel s₀ applied.memories applied.globals ∧
    Serves (streamServicings s₀.driver.plans s₀.driver.deferred s₀.shared s₀.recording
      s₀.progress.replayer (arrivalsOf chunks).groups s'.progress.calls) applied.writes

/-- The writes that host states hold for the import calls of successive groups. -/
def servedWrites (shared : Bool) (r : Recording) : List Arrival → List (Nat × List HostWrite)
  | [] => []
  | x :: l => importWrites (takeIn shared r x).hostState x.1 ++ servedWrites shared (takeIn shared r x) l

/-- What a session holds for a replay of some groups. -/
def Session.applied (s : Session σ κ) (l : List Arrival) : AppliedState :=
  ⟨initialMemories s.recording.hostState, initialGlobals s.recording.hostState,
    servedWrites s.shared s.recording l⟩

theorem importWrites_append (h : Option HostState) (cs cs' : List Crossing) :
    importWrites h (cs ++ cs') = importWrites h cs ++ importWrites h cs' := by
  rw [importWrites, List.filter_append, List.map_append]
  rfl

theorem importWrites_congr {h h' : Option HostState} {cs : List Crossing} :
    importWrites h cs = importWrites h' cs ↔
      ∀ c ∈ cs, c.kind = .import → mutationWrites h c.seq = mutationWrites h' c.seq := by
  rw [importWrites, importWrites, List.map_inj_left]
  simp [List.mem_filter]

theorem takeIn_hostState (shared : Bool) (r : Recording) (x : Arrival) :
    (takeIn shared r x).hostState = if shared then x.2 else r.hostState := by
  cases shared <;> rfl

theorem servedWrites_shared (r : Recording) (l : List Arrival) :
    servedWrites true r l = (l.map fun x => importWrites x.2 x.1).flatten := by
  induction l generalizing r with
  | nil => rfl
  | cons x l ih =>
    rw [servedWrites, ih, takeIn_hostState, if_pos rfl, List.map_cons, List.flatten_cons]

theorem servedWrites_own (r : Recording) (l : List Arrival) :
    servedWrites false r l = importWrites r.hostState (l.map Prod.fst).flatten := by
  induction l generalizing r with
  | nil => rfl
  | cons x l ih =>
    rw [servedWrites, ih, takeIn_hostState, if_neg Bool.false_ne_true, List.map_cons,
      List.flatten_cons, importWrites_append]

theorem Serves.append {log log' : List (Option HostState × Servicing)}
    {writes writes' : List (Nat × List HostWrite)} (h : Serves log writes)
    (h' : Serves log' writes') : Serves (log ++ log') (writes ++ writes') where
  held := by rw [List.map_append, h.held, h'.held]
  made := List.forall_mem_append.mpr ⟨h.made, h'.made⟩

/-- Mutations that were applied at the import crossings of a group are its writes. -/
theorem AppliedAt.serves {r : Recording} {log : List Servicing} {c : Crossing}
    {rest : List Crossing} (h : AppliedAt r log rest) (hexport : c.kind ≠ .import)
    (himports : ∀ c' ∈ rest, c'.kind = .import) :
    Serves (log.map (r.hostState, ·)) (importWrites r.hostState (c :: rest)) where
  held := by
    have hfilter : (c :: rest).filter (fun c => c.kind = .import) = rest := by
      rw [List.filter_cons_of_neg (by simpa using hexport)]
      exact List.filter_eq_self.mpr fun c' hc' => decide_eq_true (himports c' hc')
    rw [importWrites, hfilter, ← h.crossings, List.map_map, List.map_map]
    rfl
  made := by
    intro e' he'
    obtain ⟨e, he, rfl⟩ := List.mem_map.mp he'
    exact h.world e he

theorem begins_of_prepareOnce {fuel : Nat} {guest : Guest σ κ} {opts : Options σ} {r : Recording}
    {streamed : Option HostState} {s : Session σ κ}
    (h : prepareOnce fuel guest opts streamed (.waiting r) = some (.ok s)) :
    s.progress.calls = [] ∧ Begins fuel s (initialMemories s.recording.hostState)
      (initialGlobals s.recording.hostState) := by
  obtain ⟨-, -, -, -, -, -, -, -, -, p₀, hp₀, hprogress, -⟩ := prepareOnce_session h
  obtain ⟨-, w, replayer, tr, results, st, w', hw, hrun, hcontents, rfl⟩ := Driver.prepare_ok hp₀
  rw [hprogress]
  refine ⟨rfl, ⟨rfl, rfl⟩, w, replayer, tr, results, st, hw, ?_, hrun, ?_⟩
  · rw [instantiateHostModules] at hw
    split at hw
    · cases hw
    · split at hw
      · cases hw
      · next hbuild =>
        cases hw
        exact World.build_supplies hbuild
  · rw [contents_initialMemories, hprogress]
    exact hcontents

/-- **The stubs made the writes of their crossings.** In a run that consumes every crossing, each
group's import calls were serviced with the writes that the driver held for them. -/
theorem Session.driveArrivals_serves {s s' : Session σ κ} {fuel : Nat} {l : List Arrival}
    (h : s.driveArrivals fuel l = some (.ok s'))
    (hplans : planImports s.driver.guest.compiled s.driver.manifest = .ok s.driver.plans)
    (hend : s'.progress.replayer.cursor = s'.recording.crossings.length) :
    s.progress.replayer.cursor = s.recording.crossings.length ∧
      ∃ logs, s'.progress.calls = s.progress.calls ++ logs ∧
        Serves (streamServicings s.driver.plans s.driver.deferred s.shared s.recording
          s.progress.replayer l logs) (servedWrites s.shared s.recording l) := by
  induction l generalizing s with
  | nil =>
    cases h
    exact ⟨hend, [], (List.append_nil _).symm, rfl, fun _ he => absurd he List.not_mem_nil⟩
  | cons x l ih =>
    obtain ⟨s₁, hround, hrest⟩ := driveArrivals_cons_ok h
    obtain ⟨c, p, hdriv, -, hdrive, rfl⟩ := round_ok hround
    obtain ⟨p₁, hcall, hpass⟩ := Driver.driveCall_ok hdrive
    obtain ⟨hcursor, -, t, sig, args, replayer, tr, got, st, -, -, -, hrun, herr, -, rfl⟩ :=
      Driver.callExport_ok hcall
    obtain ⟨rfl, -⟩ := Driver.passPoint_ok hpass
    obtain ⟨hfull, logs, hlogs, hserves⟩ := ih hrest hplans
    obtain ⟨rfl, -, happlied⟩ := Driver.run_servicings hplans hrun
    obtain ⟨rest, hgroup, himports⟩ := hdriv.imports
    -- the call stands at the end of what was taken in before, and consumes its group
    have hstart : s.progress.replayer.cursor = s.recording.crossings.length :=
      hcursor.trans (hdriv.numbered 0 c (by rw [hgroup]; rfl))
    refine ⟨hstart, _ :: logs, hlogs.trans (List.append_assoc _ _ _), ?_⟩
    have hrest : slice (takeIn s.shared s.recording x).crossings
        (Driver.enterCall s.progress.replayer).cursor
        (takeIn s.shared s.recording x).crossings.length = rest := by
      change slice _ (s.progress.replayer.cursor + 1) _ = _
      rw [takeIn_crossings, hgroup, hstart, slice, List.take_length, List.drop_append]
      simp
    have hlog := happlied (.inl herr)
    rw [show (replayerAfter _ _ _ _ tr).cursor = _ from hfull, hrest] at hlog
    have hexport : c.kind ≠ .import := by
      have htop := hdriv.top
      rw [Crossing.isTopLevelExport] at htop
      intro hkind
      rw [hkind] at htop
      cases htop
    have hserve := hlog.serves hexport himports
    rw [← hgroup] at hserve
    exact hserve.append hserves

/-! ### Normalisation -/

theorem initialMemories_normalise (h : HostState) :
    initialMemories (some h.normalise) = initialMemories (some h) := by
  change List.map _ (List.map _ _) = _
  rw [List.map_map]
  rfl

theorem mutationWrites_normalise (h : HostState) (seq : Nat) :
    mutationWrites (some h.normalise) seq = mutationWrites (some h) seq := by
  change (List.filter _ (List.map _ h.mutationList)).flatMap _ = _
  rw [List.filter_map, List.flatMap_map]
  rfl

theorem Recording.applied_normalise (cs : List Crossing) (h : HostState) (b : Bool) :
    (⟨cs, some h.normalise, b⟩ : Recording).applied = (⟨cs, some h, b⟩ : Recording).applied := by
  have hwrites : importWrites (some h.normalise) cs = importWrites (some h) cs :=
    importWrites_congr.mpr fun c _ _ => mutationWrites_normalise h c.seq
  rw [Recording.applied, Recording.applied, initialMemories_normalise, hwrites]
  rfl

theorem undescribedImportedMemory_normalise (compiled : Compiled) (h : HostState) :
    undescribedImportedMemory compiled (some h.normalise) =
      undescribedImportedMemory compiled (some h) := by
  rw [undescribedImportedMemory, undescribedImportedMemory]
  congr 1
  funext m
  have hlist : h.normalise.memoryList =
      h.memoryList.map fun m => { m with data := some (m.data.getD []) } := rfl
  rw [Option.map_some, Option.getD_some, hlist, List.any_map]
  rfl

/-! ### Complete streams -/

theorem complete_stream {chunks : List Bytes} {events : List TraceEvent}
    (hevents : unmarshalEvents chunks.flatten = .ok events)
    (hstop : (arrivalsOf chunks).stop = .eof) :
    ∃ b, ∀ {sidecar : Option Bytes} {state : Option HostState},
      loadHostState sidecar = .ok state → ∀ r, loadRecording ⟨chunks.flatten, sidecar⟩ = .ok r ↔
        ∃ h, reconcileHostState state (arrivalsOf chunks).final = .ok h ∧
          ⟨((arrivalsOf chunks).groups.map Prod.fst).flatten, h, b⟩ = r := by
  obtain ⟨vs, hdoc, -⟩ := arrayOfObjects_of_eof hevents hstop
  obtain ⟨evs, a, a', hevs, ha, ha'⟩ := load_of_arrivals hdoc hstop
  obtain ⟨hgroups, -, hfinal⟩ := arrivals_of_load hdoc hevs ha ha'
  have hinv := (Assembler.feed_evolves Assembler.inv_empty ha).inv
  refine ⟨a'.sawImportMarker, fun hside r => ?_⟩
  rw [loadRecording_assembled hside (hdoc.unmarshalEvents.trans hevs) ha ha', hfinal, hgroups,
    Assembler.finish_flatten hinv ha', map_eq_ok]
  cases reconcileHostState _ a'.hostState <;> simp [Except.mapError]

/-! ### When the two drivers apply the same -/

/-- The stream has nothing to say that the sidecar does not. -/
def Redundant (sidecar streamed : Option HostState) (cs : List Crossing) : Prop :=
  match sidecar, streamed with
  | _, none => True
  | none, some h => initialMemories (some h) = [] ∧ initialGlobals (some h) = [] ∧
      ∀ c ∈ cs, c.kind = .import → mutationWrites (some h) c.seq = []
  | some s, some h => s.normalise.document = h.normalise.document

/-- What the stream carries comes in time for the streaming driver: a module that is
instantiated before the first byte needs nothing of it, and for the others the writes of
each import call are there when its group is complete. -/
def CarriedInTime (compiled : Compiled) (sidecar : Option HostState) (arr : Arrivals) : Prop :=
  if undescribedImportedMemory compiled sidecar = none then
    Redundant sidecar arr.final (arr.groups.map Prod.fst).flatten
  else ∀ x ∈ arr.groups, importWrites x.2 x.1 = importWrites arr.final x.1

theorem Recording.applied_none (cs : List Crossing) (b : Bool) :
    (⟨cs, none, b⟩ : Recording).applied = ⟨[], [], importWrites none cs⟩ := rfl

/-- Instantiation before the first byte: the sidecar is what is applied, and it is what loading
reconciles exactly if the stream is redundant. -/
theorem redundant_iff {sidecar streamed : Option HostState} {cs : List Crossing} {b : Bool} :
    (∃ h, reconcileHostState sidecar streamed = .ok h ∧
      (⟨cs, h, b⟩ : Recording).applied = (⟨cs, sidecar, b⟩ : Recording).applied) ↔
    Redundant sidecar streamed cs := by
  cases streamed with
  | none => exact ⟨fun _ => by cases sidecar <;> trivial, fun _ => ⟨sidecar, rfl, rfl⟩⟩
  | some h =>
    cases sidecar with
    | none =>
      have hnone : ∀ seq, mutationWrites none seq = [] := fun _ => rfl
      rw [Recording.applied_none]
      simp only [reconcileHostState, Except.ok.injEq, exists_eq_left', Recording.applied,
        AppliedState.mk.injEq, importWrites_congr, hnone, Redundant]
    | some s =>
      rw [reconcileHostState]
      by_cases heq : s.normalise.document = h.normalise.document
      · rw [if_pos heq]
        exact iff_of_true ⟨_, rfl, Recording.applied_normalise cs s b⟩ heq
      · rw [if_neg heq]
        refine iff_of_false (fun hex => ?_) heq
        obtain ⟨h', hbad, -⟩ := hex
        cases hbad

section

variable {guest : Guest σ κ} {opts : Options σ} {fuel : Nat} {r : Recording} {s₀ : Session σ κ}
  {streamed : Option HostState}

theorem applied_of_eager (hprep : prepareOnce fuel guest opts none (.waiting r) = some (.ok s₀))
    (l : List Arrival) (b : Bool) :
    s₀.applied l = (⟨(l.map Prod.fst).flatten, r.hostState, b⟩ : Recording).applied := by
  obtain ⟨-, -, -, -, -, -, -, hstate, hshared, -⟩ := prepareOnce_session hprep
  have hown : s₀.recording.hostState = r.hostState := (Except.ok.inj hstate).symm
  have hshared' : s₀.shared = false := by rw [hshared, Option.isSome_none, Bool.and_false]
  rw [Session.applied, hshared', servedWrites_own, hown]
  rfl

theorem deferred_start
    (hprep : prepareOnce fuel guest opts streamed (.waiting r) = some (.ok s₀))
    (hdef : undescribedImportedMemory guest.compiled r.hostState ≠ none) :
    r.hostState = none ∧ ∃ h, streamed = some h ∧ s₀.recording.hostState = some h ∧
      s₀.shared = true ∧ undescribedImportedMemory guest.compiled (some h) = none := by
  obtain ⟨hguest, -, -, -, -, -, -, hstate, hshared, p₀, hp₀, -⟩ := prepareOnce_session hprep
  have hdesc := (Driver.prepare_ok hp₀).1
  rw [hguest] at hdesc
  cases hside : r.hostState with
  | none =>
    rw [hside] at hstate hdef hshared
    cases streamed with
    | none =>
      rw [← Except.ok.inj hstate] at hdesc
      exact absurd hdesc hdef
    | some h =>
      have hh : s₀.recording.hostState = some h := (Except.ok.inj hstate).symm
      rw [hh] at hdesc
      exact ⟨rfl, h, rfl, hh, hshared, hdesc⟩
  | some s =>
    -- reconciling adds no memory to the sidecar
    exfalso
    rw [hside] at hstate hdef
    cases streamed with
    | none =>
      rw [← Except.ok.inj hstate] at hdesc
      exact hdef hdesc
    | some h =>
      rw [reconcileHostState] at hstate
      split_ifs at hstate
      rw [← Except.ok.inj hstate, undescribedImportedMemory_normalise] at hdesc
      exact hdef hdesc

end

theorem initial_of_described {compiled : Compiled} {h : HostState} {final : Option HostState}
    (hdef : undescribedImportedMemory compiled none ≠ none)
    (hdesc : undescribedImportedMemory compiled (some h) = none) (hearned : Earned (some h))
    (hgrow : GrowsInto (some h) final) :
    initialMemories (some h) = initialMemories final ∧
      initialGlobals (some h) = initialGlobals final := by
  have hseen : h.initialSeen = true := by
    by_contra hno
    have hempty : h.memoryList = [] := by
      rw [HostState.memoryList, hearned h rfl (Bool.eq_false_iff.mpr hno)]
      rfl
    refine hdef (Eq.trans ?_ hdesc)
    rw [undescribedImportedMemory, undescribedImportedMemory, Option.map_some, hempty]
    rfl
  obtain ⟨h', rfl, hgrows⟩ := hgrow h rfl
  obtain ⟨-, hinitial⟩ := hgrows.initial hseen
  have hmem : h'.memoryList = h.memoryList := by
    rw [HostState.memoryList, hinitial]
    rfl
  have hglob : h'.globalList = h.globalList := by
    rw [HostState.globalList, hinitial]
    rfl
  rw [initialMemories, initialMemories, initialGlobals, initialGlobals, Option.map_some,
    Option.map_some, Option.map_some, Option.map_some, hmem, hglob]
  exact ⟨rfl, rfl⟩

theorem served_iff (l : List Arrival) (final : Option HostState) :
    importWrites final (l.map Prod.fst).flatten =
        (l.map fun x => importWrites x.2 x.1).flatten ↔
      ∀ x ∈ l, importWrites x.2 x.1 = importWrites final x.1 := by
  induction l with
  | nil => simp [importWrites]
  | cons x l ih =>
    have hlen : (importWrites final x.1).length = (importWrites x.2 x.1).length := by
      rw [importWrites, importWrites, List.length_map, List.length_map]
    rw [List.map_cons, List.flatten_cons, importWrites_append, List.map_cons, List.flatten_cons,
      List.forall_mem_cons, ← ih]
    constructor
    · intro heq
      obtain ⟨hhead, htail⟩ := List.append_inj heq hlen
      exact ⟨hhead.symm, htail⟩
    · rintro ⟨hhead, htail⟩
      rw [hhead, htail]

def bystander : Compiled where
  importedFunctions := []
  exportedFunctions := [("f".toList, ⟨[], []⟩)]
  imports_lt := by decide

def bystanderScript : Script bystander where
  calls := [⟨[], [], []⟩]

def perturbedTrace : List Bytes := List.singleton <| Json.encode <| String.toList <|
  "[\x7b\"Function\":\x7b\"name\":\"f\"\x7d\x7d,
   \x7b\"Event\":\x7b\"kind\":12,
   \"metadata\":\"\x7b\\\"boundary_id\\\":\\\"wasm-host-state\\\",\\\"version\\\":1,\\\"record\\\":\\\"initial\\\",\\\"initial\\\":\x7b\\\"globals\\\":[\x7b\\\"module\\\":\\\"env\\\",\\\"name\\\":\\\"g\\\",\\\"type\\\":\\\"i32\\\",\\\"value\\\":\\\"1\\\"\x7d]\x7d\x7d\"\x7d\x7d,
   \x7b\"Call\":\x7b\x7d\x7d,\x7b\"Return\":\x7b\x7d\x7d]"

def perturbedSidecar : Bytes := Json.encode <| String.toList <|
  "\x7b\"version\":1,\"initial\":\x7b\"globals\":
   [\x7b\"module\":\"env\",\"name\":\"g\",\"type\":\"i32\",\"value\":\"2\"\x7d]\x7d\x7d"

def perturbedState : HostState where
  version := 1
  initial := { globals := some [⟨"env".toList, "g".toList, "i32".toList, false, "2".toList⟩] }

theorem perturbed_accepted : ∃ out : StreamResult Nat,
    streamingReplay 10 10 bystanderScript.guest {} { hostState := some perturbedState }
      (.ofChunks perturbedTrace) = some (.ok out) ∧ out.truncation = none := by
  have hrun : returnsWith (fun out => out.truncation.isNone)
      (streamingReplay 10 10 bystanderScript.guest {} { hostState := some perturbedState }
        (.ofChunks perturbedTrace)) = true := by
    rw [perturbedTrace, String.toList_ofList]
    decide +kernel
  obtain ⟨out, hout, htr⟩ := returnsWith_iff.mp hrun
  exact ⟨out, hout, Option.isNone_iff_eq_none.mp htr⟩

theorem perturbed_metadata : loadRecordingMetadata ⟨perturbedTrace.flatten, some perturbedSidecar⟩ =
    .ok { hostState := some perturbedState } := by
  rw [perturbedSidecar, String.toList_ofList]
  decide +kernel

theorem perturbed_refused : loadRecording ⟨perturbedTrace.flatten, some perturbedSidecar⟩ =
    .error (.hostState .disagreement) := by
  rw [perturbedTrace, perturbedSidecar, String.toList_ofList, String.toList_ofList]
  decide +kernel

end Boundarylog
