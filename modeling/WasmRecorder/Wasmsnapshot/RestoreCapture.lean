import WasmRecorder.Wasmsnapshot.EngineIndependence

/-!
# A snapshot is put back as it was taken

A snapshot is restored into a fresh instance of the module it was taken from. The fresh instance has
its own addresses for the functions, and a memory that may have to grow first.

* `restoreMemory_captured`, `restoreGlobals_captured`, `tables_captured` — one part of the
  state each.
* `restore_capture` — the whole.
-/

namespace Wasmsnapshot

open Checked Wasm Fallible

/-- A memory of whole pages, not more than it may have. -/
structure SizedMemory (mem : MemoryInstance) : Prop where
  whole : mem.buffer.length % pageSize = 0
  pages : mem.buffer.length / pageSize ≤ mem.max.toNat
  limit : mem.max.toNat ≤ memoryLimitPages

theorem SizedMemory.of_length {mem : MemoryInstance} {n : Nat} (h : mem.buffer.length = n)
    (hwhole : n % pageSize = 0) (hpages : n / pageSize ≤ mem.max.toNat)
    (hlimit : mem.max.toNat ≤ memoryLimitPages) : SizedMemory mem := by
  subst h
  exact ⟨hwhole, hpages, hlimit⟩

/-- A fresh instance of the module of another one. -/
structure FreshInstance (m fresh : ModuleInstance) : Prop where
  memory : m.memory.map MemoryInstance.max = fresh.memory.map MemoryInstance.max
  sized : ∀ mem ∈ fresh.memory, SizedMemory mem
  globals : m.globals.map GlobalInstance.type = fresh.globals.map GlobalInstance.type
  tables : m.tables.map TableInstance.type = fresh.tables.map TableInstance.type
  functions : m.engine.functions.length = fresh.engine.functions.length

/-- The state of an instance can be put into a fresh one: the tables have kept their lengths and hold
nothing but functions of the module, and the memory is at least as large as that of the fresh
instance. -/
structure Restorable (m fresh : ModuleInstance) : Prop where
  lengths : m.tables.map (fun t => t.references.length) =
    fresh.tables.map fun t => t.references.length
  references : ∀ t ∈ m.tables, ∀ r ∈ t.references,
    r = 0 ∨ t.type = .funcref ∧ r ∈ m.engine.functions
  sized : ∀ mem ∈ m.memory, SizedMemory mem
  grown : ∀ mem ∈ m.memory, ∀ mem' ∈ fresh.memory, mem'.buffer.length ≤ mem.buffer.length

/-! ### Memory -/

section Memory

variable {mem mem' : MemoryInstance}

theorem toInt32_not_neg {d : UInt32} (h : d.toNat < 2 ^ 31) : ¬ d.toInt32 < 0 := by
  rw [Int32.lt_iff_toInt_lt]
  change ¬ d.toBitVec.toInt < 0
  rw [BitVec.toInt_eq_toNat_of_lt (by change 2 * d.toNat < 2 ^ 32; omega)]
  omega

theorem growTo_captured (hmem : SizedMemory mem) (hmem' : SizedMemory mem')
    (hmax : mem.max = mem'.max) (hle : mem'.buffer.length ≤ mem.buffer.length) :
    ∃ grown, growTo mem' (UInt64.ofNat mem.buffer.length) = .ok grown ∧
      grown.buffer.length = mem.buffer.length := by
  have hwhole := hmem.whole
  have hpages := hmem.pages
  have hlimit := hmem.limit
  have hwhole' := hmem'.whole
  rw [pageSize] at hwhole hpages hwhole'
  rw [memoryLimitPages] at hlimit
  have hsize : (UInt64.ofNat mem.buffer.length).toNat = mem.buffer.length :=
    UInt64.toNat_ofNat_of_lt' (by change _ < 2 ^ 64; omega)
  rw [growTo, hsize]
  by_cases hlt : mem'.buffer.length < mem.buffer.length
  · rw [if_pos hlt]
    generalize hdelta : UInt32.ofNat ((mem.buffer.length - mem'.buffer.length) / pageSize) = delta
    have hdeltaNat : delta.toNat = (mem.buffer.length - mem'.buffer.length) / 65536 := by
      rw [← hdelta, pageSize]
      exact UInt32.toNat_ofNat_of_lt' (by change _ < 2 ^ 32; omega)
    have hcurrent : mem'.pages.toNat = mem'.buffer.length / 65536 := by
      rw [MemoryInstance.pages, memoryPageSize]
      exact UInt32.toNat_ofNat_of_lt' (by change _ < 2 ^ 32; omega)
    have hne : delta ≠ 0 := by
      intro hzero
      rw [hzero] at hdeltaNat
      change 0 = _ at hdeltaNat
      omega
    have hallowed : ¬ (mem'.max < mem'.pages + delta ∨ delta.toInt32 < 0) := by
      rw [not_or, UInt32.lt_iff_toNat_lt, UInt32.toNat_add, hcurrent, hdeltaNat, ← hmax]
      exact ⟨by omega, toInt32_not_neg (by omega)⟩
    rw [MemoryInstance.grow]
    dsimp only
    rw [if_neg hne, if_neg hallowed]
    refine ⟨_, rfl, ?_⟩
    rw [List.length_append, List.length_replicate, hdeltaNat, memoryPageSize]
    omega
  · rw [if_neg hlt]
    exact ⟨mem', rfl, by omega⟩

theorem copyOver_eq {dst src : Bytes} (h : dst.length = src.length) : copyOver dst src = src := by
  rw [copyOver, h, List.take_length, List.drop_eq_nil_of_le (Nat.le_of_eq h), List.append_nil]

theorem restoreMemory_captured {s : Snapshot} (hmem : SizedMemory mem)
    (hmem' : SizedMemory mem') (hmax : mem.max = mem'.max)
    (hle : mem'.buffer.length ≤ mem.buffer.length) (hs : s.memory = mem.buffer)
    (hbytes : s.memoryBytes = UInt64.ofNat mem.buffer.length) :
    ∃ restored, s.restoreMemory (some mem') = .ok (some restored) ∧
      restored.buffer = mem.buffer := by
  rw [Snapshot.restoreMemory, hs, hbytes]
  by_cases hne : mem.buffer ≠ []
  · obtain ⟨grown, hgrow, hlen⟩ := growTo_captured hmem hmem' hmax hle
    have hnot : ¬ (UInt64.ofNat mem.buffer.length).toNat < mem'.buffer.length := by
      have hpages := hmem.pages
      have hlimit := hmem.limit
      rw [pageSize] at hpages
      rw [memoryLimitPages] at hlimit
      rw [UInt64.toNat_ofNat_of_lt' (by change _ < 2 ^ 64; omega)]
      omega
    rw [if_pos hne, if_neg hnot, hgrow, ok_bind]
    exact ⟨_, rfl, copyOver_eq hlen⟩
  · rw [not_not] at hne
    have hempty : mem'.buffer.length = 0 := by
      rw [hne, List.length_nil] at hle
      omega
    rw [if_neg (not_not.mpr hne), if_neg]
    · exact ⟨mem', rfl, by rw [hne, List.length_eq_zero_iff.mp hempty]⟩
    · rintro ⟨mem'', hmem'', hlen⟩
      cases hmem''
      exact hlen hempty

theorem memory_captured {m fresh : ModuleInstance} (hfresh : FreshInstance m fresh)
    (h : Restorable m fresh) :
    ∃ memory, captureMemory m.memory = .ok memory ∧ ∀ s : Snapshot, s.memory = memory →
      s.memoryBytes = UInt64.ofNat memory.length →
      ∃ restored, s.restoreMemory fresh.memory = .ok restored ∧
        restored.map MemoryInstance.buffer = m.memory.map MemoryInstance.buffer := by
  have hmax := hfresh.memory
  cases hmem : m.memory with
  | none =>
    rw [hmem] at hmax
    have hnone : fresh.memory = none := Option.map_eq_none_iff.mp hmax.symm
    refine ⟨[], rfl, fun s hs _ => ⟨none, ?_, rfl⟩⟩
    rw [hnone, Snapshot.restoreMemory.eq_def, if_neg (not_not.mpr hs)]
    exact if_neg fun ⟨mem, hmem, _⟩ => (by cases hmem)
  | some mem =>
    rw [hmem] at hmax
    obtain ⟨mem', hmem', hmax'⟩ := Option.map_eq_some_iff.mp hmax.symm
    have hsized := h.sized mem hmem
    refine ⟨mem.buffer, ?_, fun s hs hbytes => ?_⟩
    · rw [captureMemory, if_neg (not_not.mpr hsized.whole)]
    · obtain ⟨restored, hrestored, hbuffer⟩ := restoreMemory_captured hsized
        (hfresh.sized mem' hmem') hmax'.symm (h.grown mem hmem mem' hmem') hs hbytes
      rw [hmem']
      exact ⟨some restored, hrestored, by rw [Option.map_some, Option.map_some, hbuffer]⟩

end Memory

/-! ### Globals -/

theorem restoreGlobals_captured {gs gs' : List GlobalInstance}
    (h : gs.map GlobalInstance.type = gs'.map GlobalInstance.type) (i : Nat) :
    restoreGlobals i (gs.map captureGlobal) gs' = .ok gs := by
  induction gs generalizing gs' i with
  | nil =>
    rw [List.map_nil] at h
    rw [List.map_eq_nil_iff.mp h.symm]
    rfl
  | cons g gs ih =>
    cases gs' with
    | nil => cases h
    | cons g' gs' =>
      rw [List.map_cons, List.map_cons, List.cons.injEq] at h
      rw [List.map_cons, restoreGlobals]
      have htype : ¬ g'.type.valType.byte ≠ (captureGlobal g).valueType := by
        rw [not_not, ← h.1]
        rfl
      rw [if_neg htype, ih h.2]
      have hvalue : ({ g' with val := (captureGlobal g).lo, valHi := (captureGlobal g).hi } :
          GlobalInstance) = g := by
        obtain ⟨type, val, valHi⟩ := g
        rw [← h.1]
        rfl
      rw [ok_bind, hvalue]
      rfl

/-! ### Tables -/

section Tables

variable {e e' : ModuleEngine}

theorem restoreElement_captured {i : Nat} {r : Reference}
    (h : e'.functionInstanceReference i = some r) :
    restoreElement e' (Int32.ofNat i) = .ok r := by
  obtain ⟨hi, -⟩ := List.getElem?_eq_some_iff.mp h
  have hcount := e'.count
  rw [maximumFunctionIndex] at hcount
  have hindex : (Int32.ofNat i).toUInt32.toNat = i := by
    rw [Int32.toUInt32_ofNat']
    exact UInt32.toNat_ofNat_of_lt' (by change _ < 2 ^ 32; omega)
  have hne : Int32.ofNat i ≠ nullElement := by
    intro heq
    rw [heq] at hindex
    change 4294967295 = i at hindex
    omega
  rw [restoreElement, if_neg hne, hindex, h]

/-- A slot that is null or holds a function of the instance: what is captured is put back as the same
function of the other instance. -/
theorem element_captured (hcount : e.functions.length = e'.functions.length) {r : Reference}
    (hr : r = 0 ∨ r ∈ e.functions) (table slot : Nat) :
    ∃ fi r', captureElement e table slot r = .ok fi ∧ restoreElement e' fi = .ok r' ∧
      SameReference e e' r r' := by
  rcases hr with rfl | hr
  · exact ⟨nullElement, 0, rfl, rfl, .inl ⟨rfl, rfl⟩⟩
  · obtain ⟨i, hi, rfl⟩ := List.getElem_of_mem hr
    have hown : e.functionInstanceReference i = some e.functions[i] := List.getElem?_eq_getElem hi
    have hother : e'.functionInstanceReference i = some (e'.functions[i]) :=
      List.getElem?_eq_getElem (hcount ▸ hi)
    exact ⟨Int32.ofNat i, _, captureElement_eq hown table slot, restoreElement_captured hother,
      .inr ⟨i, hown, hother⟩⟩

theorem elements_captured (hcount : e.functions.length = e'.functions.length)
    {refs : List Reference} (hrefs : ∀ r ∈ refs, r = 0 ∨ r ∈ e.functions) (table slot : Nat) :
    ∃ fis refs', captureElements e table slot refs = .ok fis ∧
      fis.mapM (restoreElement e') = .ok refs' ∧ List.Forall₂ (SameReference e e') refs refs' := by
  induction refs generalizing slot with
  | nil => exact ⟨[], [], rfl, rfl, .nil⟩
  | cons r refs ih =>
    obtain ⟨fi, r', hfi, hr', hsame⟩ :=
      element_captured hcount (hrefs r List.mem_cons_self) table slot
    obtain ⟨fis, refs', hfis, hrefs', hall⟩ :=
      ih (fun q hq => hrefs q (List.mem_cons_of_mem r hq)) (slot + 1)
    refine ⟨fi :: fis, r' :: refs', ?_, ?_, .cons hsame hall⟩
    · rw [captureElements, hfi, ok_bind, hfis]
      rfl
    · rw [List.mapM_cons, hr', ok_bind, hrefs']
      rfl

theorem table_captured (hcount : e.functions.length = e'.functions.length) {t : TableInstance}
    (hrefs : ∀ r ∈ t.references, r = 0 ∨ t.type = .funcref ∧ r ∈ e.functions) (i : Nat) :
    ∃ v refs', captureTable e i t = .ok v ∧ v.elements.mapM (restoreElement e') = .ok refs' ∧
      List.Forall₂ (SameReference e e') t.references refs' := by
  rw [captureTable]
  cases htype : t.type with
  | funcref =>
    obtain ⟨fis, refs', hfis, hrefs', hall⟩ :=
      elements_captured hcount (fun r hr => (hrefs r hr).imp_right And.right) i 0
    exact ⟨_, refs', by rw [hfis]; rfl, hrefs', hall⟩
  | externref =>
    have hnull : ∀ r ∈ t.references, r = 0 := by
      intro r hr
      refine (hrefs r hr).resolve_right fun h => ?_
      rw [htype] at h
      cases h.1
    dsimp only
    rw [if_neg (by simpa using hnull)]
    refine ⟨_, t.references.map fun _ => 0, rfl, ?_, ?_⟩
    · generalize t.references = refs
      induction refs with
      | nil => rfl
      | cons r refs ih =>
        dsimp only at ih
        dsimp only
        rw [List.map_cons, List.mapM_cons, ih]
        rfl
    · rw [List.forall₂_map_right_iff, List.forall₂_same]
      exact fun r hr => .inl ⟨hnull r hr, rfl⟩

theorem tables_captured (hcount : e.functions.length = e'.functions.length)
    {ts ts' : List TableInstance}
    (hrefs : ∀ t ∈ ts, ∀ r ∈ t.references, r = 0 ∨ t.type = .funcref ∧ r ∈ e.functions)
    (htypes : ts.map TableInstance.type = ts'.map TableInstance.type)
    (hlengths : ts.map (fun t => t.references.length) = ts'.map fun t => t.references.length)
    (i : Nat) :
    ∃ vs restored, captureTables e i ts = .ok vs ∧ vs.length = ts'.length ∧
      restoreTables e' i vs ts' = .ok restored ∧ List.Forall₂ (SameTable e e') ts restored := by
  induction ts generalizing ts' i with
  | nil =>
    rw [List.map_nil] at htypes
    rw [List.map_eq_nil_iff.mp htypes.symm]
    exact ⟨[], [], rfl, rfl, rfl, .nil⟩
  | cons t ts ih =>
    cases ts' with
    | nil => cases htypes
    | cons t' ts' =>
      rw [List.map_cons, List.map_cons, List.cons.injEq] at htypes hlengths
      obtain ⟨v, refs', hv, hrefs', hall⟩ := table_captured hcount (hrefs t List.mem_cons_self) i
      obtain ⟨vs, restored, hvs, hlen, hrestored, hsame⟩ :=
        ih (fun q hq => hrefs q (List.mem_cons_of_mem t hq)) htypes.2 hlengths.2 (i + 1)
      have helements : v.elements.length = t'.references.length := by
        rw [← length_of_mapM_eq_ok hrefs', ← hall.length_eq, hlengths.1]
      refine ⟨v :: vs, { t' with references := refs' } :: restored, ?_, ?_, ?_, ?_⟩
      · rw [captureTables, hv, ok_bind, hvs]
        rfl
      · rw [List.length_cons, List.length_cons, hlen]
      · rw [restoreTables, if_neg (not_not.mpr helements), hrefs', ok_bind, hrestored]
        rfl
      · exact .cons ⟨htypes.1, hall⟩ hsame

end Tables

/-! ### The whole state -/

/-- **Restore inverts capture.** The state of an instance is captured, and put into a fresh instance
it leaves the same bytes in the memory, the same value in every global and the same function in
every slot of the tables. -/
theorem restore_capture {m fresh : ModuleInstance} (hfresh : FreshInstance m fresh)
    (h : Restorable m fresh) (point : Int) :
    ∃ s m', capture m point = .ok s ∧ s.restore fresh = .ok m' ∧
      m'.memory.map MemoryInstance.buffer = m.memory.map MemoryInstance.buffer ∧
      m'.globals = m.globals ∧
      m'.engine = fresh.engine ∧
      List.Forall₂ (SameTable m.engine fresh.engine) m.tables m'.tables := by
  obtain ⟨vs, restored, hvs, hcount, hrestored, hsame⟩ :=
    tables_captured hfresh.functions h.references hfresh.tables h.lengths 0
  have hglobals := restoreGlobals_captured hfresh.globals 0
  have hlength : (m.globals.map captureGlobal).length = fresh.globals.length := by
    rw [List.length_map, ← List.length_map (f := GlobalInstance.type), hfresh.globals,
      List.length_map]
  have howns : ¬ fresh.engine.ownsGlobals = true := Bool.false_ne_true
  obtain ⟨memory, hcapture, hrestore⟩ := memory_captured hfresh h
  let s : Snapshot := ⟨point, UInt64.ofNat memory.length, memory, m.globals.map captureGlobal, vs⟩
  obtain ⟨mem', hmem', hbuffer⟩ := hrestore s rfl rfl
  refine ⟨s, { fresh with memory := mem', globals := m.globals, tables := restored }, ?_, ?_,
    hbuffer, rfl, rfl, hsame⟩
  · rw [capture_eq, hcapture, ok_bind, hvs, ok_bind]
  · rw [Snapshot.restore, hmem', ok_bind, if_neg howns, if_neg (not_not.mpr hlength), hglobals,
      ok_bind, if_neg (not_not.mpr hcount), hrestored]
    rfl

/-- An instance with one function and a memory of at most two pages. -/
def withMemory (address : Reference) (h : address ≠ 0) (global : UInt64) (buffer : Bytes) :
    ModuleInstance :=
  { oneFunction address h [⟨⟨.i64, true⟩, global, 0⟩] with memory := some ⟨buffer, 2⟩ }

/-- A memory that has grown by a page is put into an instance whose memory is empty. -/
theorem restore_capture_grown :
    ∃ s m', capture (withMemory 8 (by decide) 5 zeroPage) 0 = .ok s ∧
      s.restore (withMemory 16 (by decide) 0 []) = .ok m' ∧
      m'.memory.map MemoryInstance.buffer = some zeroPage ∧
      m'.globals = [⟨⟨.i64, true⟩, 5, 0⟩] := by
  have hsized : SizedMemory ⟨zeroPage, 2⟩ :=
    .of_length length_zeroPage (by decide) (by decide) (by decide)
  have hempty : SizedMemory ⟨[], 2⟩ := ⟨rfl, Nat.zero_le _, by decide⟩
  have hfresh : FreshInstance (withMemory 8 (by decide) 5 zeroPage)
      (withMemory 16 (by decide) 0 []) :=
    ⟨rfl, fun mem hmem => by cases hmem; exact hempty, rfl, rfl, rfl⟩
  have hrestorable : Restorable (withMemory 8 (by decide) 5 zeroPage)
      (withMemory 16 (by decide) 0 []) := by
    refine ⟨rfl, fun t ht r hr => ?_, fun mem hmem => ?_, fun mem hmem mem' hmem' => ?_⟩
    · rw [List.mem_singleton.mp ht] at hr ⊢
      rcases List.mem_cons.mp hr with rfl | hr
      · exact .inr ⟨rfl, List.mem_singleton_self _⟩
      · exact .inl (List.mem_singleton.mp hr)
    · cases hmem
      exact hsized
    · cases hmem'
      exact Nat.zero_le _
  obtain ⟨s, m', hcapture, hrestore, hmemory, hglobals, -, -⟩ :=
    restore_capture hfresh hrestorable 0
  exact ⟨s, m', hcapture, hrestore, hmemory, hglobals⟩

end Wasmsnapshot
