import WasmRecorder.Wasmsnapshot.Snapshot

/-!
# What of a snapshot depends on the engine

Two instances of one module are in the same abstract state when they differ in nothing but the
addresses of their functions (`SameState`). Tables are captured by function index, so they come out
the same. Globals are captured as they are: an address that is the value of a global goes into the
snapshot.

* `captureTables_congr` — tables are captured the same on both instances.
* `capture_sameOutcome_iff` — the captures agree exactly if nothing can be captured, or no global
  holds a reference.
-/

namespace Wasmsnapshot

open Wasm Fallible LittleEndian

/-! ### The same abstract state -/

section Abstract

variable (e e' : ModuleEngine)

/-- Null in both instances, or the same function in both. -/
def SameReference (r r' : Reference) : Prop :=
  r = 0 ∧ r' = 0 ∨
    ∃ i, e.functionInstanceReference i = some r ∧ e'.functionInstanceReference i = some r'

structure SameGlobal (g g' : GlobalInstance) : Prop where
  type : g.type = g'.type
  numeric : g.type.valType.isRef = false → g.val = g'.val
  reference : g.type.valType.isRef = true → SameReference e e' g.val g'.val
  valHi : g.valHi = g'.valHi

structure SameTable (t t' : TableInstance) : Prop where
  type : t.type = t'.type
  references : List.Forall₂ (SameReference e e') t.references t'.references

end Abstract

/-- Two instances in the same abstract state. -/
structure SameState (m m' : ModuleInstance) : Prop where
  memory : m.memory.map MemoryInstance.buffer = m'.memory.map MemoryInstance.buffer
  globals : List.Forall₂ (SameGlobal m.engine m'.engine) m.globals m'.globals
  tables : List.Forall₂ (SameTable m.engine m'.engine) m.tables m'.tables

/-- No function has the same address in both. -/
def DifferentAddresses (e e' : ModuleEngine) : Prop :=
  ∀ i r r', e.functionInstanceReference i = some r → e'.functionInstanceReference i = some r' →
    r ≠ r'

/-- An error on both sides, or the same bytes on both sides. -/
def SameOutcome : Except CaptureError Snapshot → Except CaptureError Snapshot → Prop
  | .error _, .error _ => True
  | .ok s, .ok s' => encodeGlobals s.globals = encodeGlobals s'.globals ∧
      encodeTables s.tables = encodeTables s'.tables
  | _, _ => False

/-- The memory is not made of whole pages, or there is an external reference in a table. -/
def Uncapturable (m : ModuleInstance) : Prop :=
  (∃ mem, m.memory = some mem ∧ mem.buffer.length % pageSize ≠ 0) ∨
    ∃ t ∈ m.tables, t.type = .externref ∧ ∃ ref ∈ t.references, ref ≠ 0

/-- No global holds a reference. -/
def NullReferences (m : ModuleInstance) : Prop :=
  ∀ g ∈ m.globals, g.type.valType.isRef = true → g.val = 0

/-! ### Tables -/

section Tables

variable {e e' : ModuleEngine}

theorem functionInstanceReference_ne_zero {i : Nat} {r : Reference}
    (h : e.functionInstanceReference i = some r) : r ≠ 0 := by
  intro hr
  rw [hr] at h
  exact e.nonzero (List.mem_of_getElem? h)

theorem idxOf?_functions {i : Nat} {r : Reference} (h : e.functionInstanceReference i = some r) :
    e.functions.idxOf? r = some i := by
  obtain ⟨hi, rfl⟩ := List.getElem?_eq_some_iff.mp h
  refine List.idxOf?_eq_some_iff.mpr ⟨hi, rfl, fun j hj heq => ?_⟩
  have := e.nodup.getElem_inj_iff.mp heq
  omega

theorem captureElement_eq {r : Reference} {i : Nat} (h : e.functionInstanceReference i = some r)
    (table slot : Nat) : captureElement e table slot r = .ok (Int32.ofNat i) := by
  rw [captureElement, if_neg (functionInstanceReference_ne_zero h), idxOf?_functions h]

theorem captureElement_congr {r r' : Reference} (h : SameReference e e' r r') (table slot : Nat) :
    ∃ fi, captureElement e table slot r = .ok fi ∧ captureElement e' table slot r' = .ok fi := by
  rcases h with ⟨rfl, rfl⟩ | ⟨i, hr, hr'⟩
  · exact ⟨nullElement, rfl, rfl⟩
  · exact ⟨Int32.ofNat i, captureElement_eq hr table slot, captureElement_eq hr' table slot⟩

theorem captureElements_congr {refs refs' : List Reference}
    (h : List.Forall₂ (SameReference e e') refs refs') (table slot : Nat) :
    ∃ fis, captureElements e table slot refs = .ok fis ∧
      captureElements e' table slot refs' = .ok fis := by
  induction h generalizing slot with
  | nil => exact ⟨[], rfl, rfl⟩
  | cons hr _ ih =>
    obtain ⟨fi, hfi, hfi'⟩ := captureElement_congr hr table slot
    obtain ⟨fis, hfis, hfis'⟩ := ih (slot + 1)
    refine ⟨fi :: fis, ?_, ?_⟩
    · rw [captureElements, hfi, ok_bind, hfis]
      rfl
    · rw [captureElements, hfi', ok_bind, hfis']
      rfl

theorem SameReference.zero_iff {r r' : Reference} (h : SameReference e e' r r') :
    r = 0 ↔ r' = 0 := by
  rcases h with ⟨rfl, rfl⟩ | ⟨i, hr, hr'⟩
  · exact Iff.rfl
  · exact iff_of_false (functionInstanceReference_ne_zero hr) (functionInstanceReference_ne_zero hr')

theorem exists_nonzero_congr {refs refs' : List Reference}
    (h : List.Forall₂ (SameReference e e') refs refs') :
    (∃ ref ∈ refs, ref ≠ 0) ↔ ∃ ref ∈ refs', ref ≠ 0 := by
  induction h with
  | nil => simp only [List.not_mem_nil, false_and, exists_false]
  | cons hr _ ih =>
    simp only [List.exists_mem_cons_iff, ih, Ne, hr.zero_iff]

theorem captureTable_congr {t t' : TableInstance} (h : SameTable e e' t t') (i : Nat) :
    captureTable e i t = captureTable e' i t' := by
  rw [captureTable, captureTable, ← h.type]
  cases htype : t.type with
  | externref =>
    dsimp only
    have hlen := h.references.length_eq
    simp only [exists_nonzero_congr h.references, List.map_const', hlen]
  | funcref =>
    obtain ⟨fis, hfis, hfis'⟩ := captureElements_congr h.references i 0
    dsimp only
    rw [hfis, hfis']

/-- **Tables come out the same.** -/
theorem captureTables_congr {ts ts' : List TableInstance}
    (h : List.Forall₂ (SameTable e e') ts ts') (i : Nat) :
    captureTables e i ts = captureTables e' i ts' := by
  induction h generalizing i with
  | nil => rfl
  | cons ht _ ih => rw [captureTables, captureTables, captureTable_congr ht i, ih (i + 1)]

theorem captureTables_error {ts ts' : List TableInstance}
    (h : List.Forall₂ (SameTable e e') ts ts') (i : Nat) :
    (∃ err, captureTables e i ts = .error err) ↔
      ∃ t ∈ ts, t.type = .externref ∧ ∃ ref ∈ t.references, ref ≠ 0 := by
  induction h generalizing i with
  | nil =>
    rw [captureTables]
    exact iff_of_false (fun ⟨_, h⟩ => (by cases h)) (fun ⟨t, ht, _⟩ => absurd ht List.not_mem_nil)
  | @cons t t' ts ts' ht _ ih =>
    rw [captureTables, captureTable, List.exists_mem_cons_iff, ← ih (i + 1)]
    cases htype : t.type with
    | externref =>
      dsimp only
      split
      · next hex => exact iff_of_true ⟨_, rfl⟩ (.inl ⟨rfl, hex⟩)
      · next hnone =>
        rw [ok_bind]
        simp only [hnone, and_false, false_or]
        cases captureTables e (i + 1) ts with
        | error err => exact Iff.rfl
        | ok vs => exact iff_of_false (fun ⟨_, h⟩ => (by cases h)) (fun ⟨_, h⟩ => (by cases h))
    | funcref =>
      obtain ⟨fis, hfis, -⟩ := captureElements_congr ht.references i 0
      dsimp only
      rw [hfis]
      simp only [reduceCtorEq, false_and, false_or]
      cases captureTables e (i + 1) ts with
      | error err => exact Iff.rfl
      | ok vs => exact iff_of_false (fun ⟨_, h⟩ => (by cases h)) (fun ⟨_, h⟩ => (by cases h))

end Tables

/-! ### Globals -/

theorem le64_inj {x y : UInt64} (h : le64 x = le64 y) : x = y := by
  have hx : u64At ([] ++ le64 x ++ []) 0 = x := u64At_append rfl
  have hy : u64At ([] ++ le64 y ++ []) 0 = y := u64At_append rfl
  rw [← hx, ← hy, h]

theorem length_globalValue_bytes (g : GlobalValue) : g.bytes.length = 20 := by
  rw [GlobalValue.bytes]
  simp only [List.length_append, length_le64, List.length_cons, List.length_nil]

theorem globalValue_bytes_inj {g g' : GlobalValue} (h : g.bytes = g'.bytes) : g = g' := by
  obtain ⟨valueType, isMutable, lo, hi⟩ := g
  obtain ⟨valueType', isMutable', lo', hi'⟩ := g'
  simp only [GlobalValue.bytes] at h
  obtain ⟨hhead, hwords⟩ := List.append_inj h rfl
  obtain ⟨hlo, hhi⟩ := List.append_inj hwords (by rw [length_le64, length_le64])
  simp only [List.cons.injEq, and_true] at hhead
  have hmutable : isMutable = isMutable' := by
    have hbyte : ∀ b b' : Bool, (if b then (1 : UInt8) else 0) = (if b' then 1 else 0) → b = b' := by
      decide
    exact hbyte _ _ hhead.2
  rw [hhead.1, hmutable, le64_inj hlo, le64_inj hhi]

theorem flatMap_globals_inj {gs gs' : List GlobalValue} (hlen : gs.length = gs'.length)
    (h : gs.flatMap GlobalValue.bytes = gs'.flatMap GlobalValue.bytes) : gs = gs' := by
  induction gs generalizing gs' with
  | nil => exact (List.length_eq_zero_iff.mp hlen.symm).symm
  | cons g gs ih =>
    cases gs' with
    | nil => cases hlen
    | cons g' gs' =>
      rw [List.flatMap_cons, List.flatMap_cons] at h
      obtain ⟨hhead, htail⟩ := List.append_inj h
        (by rw [length_globalValue_bytes, length_globalValue_bytes])
      rw [globalValue_bytes_inj hhead, ih (Nat.succ.inj hlen) htail]

theorem encodeGlobals_inj {gs gs' : List GlobalValue} (hlen : gs.length = gs'.length)
    (h : encodeGlobals gs = encodeGlobals gs') : gs = gs' := by
  rw [encodeGlobals, encodeGlobals] at h
  exact flatMap_globals_inj hlen (List.append_inj h (by rw [length_le32, length_le32])).2

section Globals

variable {e e' : ModuleEngine}

theorem captureGlobal_eq_iff {g g' : GlobalInstance} (h : SameGlobal e e' g g')
    (hdiff : DifferentAddresses e e') :
    captureGlobal g = captureGlobal g' ↔ (g.type.valType.isRef = true → g.val = 0) := by
  simp only [captureGlobal, GlobalValue.mk.injEq, h.type, h.valHi, true_and, and_true]
  rw [← h.type]
  cases href : g.type.valType.isRef with
  | false => exact iff_of_true (h.numeric href) nofun
  | true =>
    rcases h.reference href with ⟨hr, hr'⟩ | ⟨i, hr, hr'⟩
    · exact iff_of_true (hr.trans hr'.symm) fun _ => hr
    · exact iff_of_false (hdiff i _ _ hr hr') fun hzero =>
        functionInstanceReference_ne_zero hr (hzero rfl)

theorem map_captureGlobal_eq_iff {gs gs' : List GlobalInstance}
    (h : List.Forall₂ (SameGlobal e e') gs gs') (hdiff : DifferentAddresses e e') :
    gs.map captureGlobal = gs'.map captureGlobal ↔
      ∀ g ∈ gs, g.type.valType.isRef = true → g.val = 0 := by
  induction h with
  | nil => exact iff_of_true rfl fun g hg => absurd hg List.not_mem_nil
  | cons hg _ ih =>
    rw [List.map_cons, List.map_cons, List.cons.injEq, captureGlobal_eq_iff hg hdiff, ih,
      List.forall_mem_cons]

end Globals

/-! ### Capture on two engines -/

section Capture

variable {m m' : ModuleInstance}

theorem captureMemory_congr {mem mem' : Option MemoryInstance}
    (h : mem.map MemoryInstance.buffer = mem'.map MemoryInstance.buffer) :
    captureMemory mem = captureMemory mem' := by
  cases mem with
  | none =>
    cases mem' with
    | none => rfl
    | some mem' => cases h
  | some mem =>
    cases mem' with
    | none => cases h
    | some mem' =>
      rw [captureMemory, captureMemory, Option.some.inj h]

theorem captureMemory_error {mem : Option MemoryInstance} :
    (∃ err, captureMemory mem = .error err) ↔
      ∃ inst, mem = some inst ∧ inst.buffer.length % pageSize ≠ 0 := by
  cases mem with
  | none => exact iff_of_false (fun ⟨_, h⟩ => (by cases h)) (fun ⟨_, h, _⟩ => (by cases h))
  | some inst =>
    rw [captureMemory]
    split
    · next h => exact iff_of_true ⟨_, rfl⟩ ⟨inst, rfl, h⟩
    · next h =>
      refine iff_of_false (fun ⟨_, h⟩ => (by cases h)) fun ⟨inst', heq, hne⟩ => ?_
      cases heq
      exact h hne

theorem capture_eq (m : ModuleInstance) (point : Int) :
    capture m point = (captureMemory m.memory >>= fun memory =>
      captureTables m.engine 0 m.tables >>= fun tables =>
        .ok ⟨point, UInt64.ofNat memory.length, memory, m.globals.map captureGlobal, tables⟩) := rfl

/-- **When snapshots do not depend on the engine.** On two instances in the same abstract state
whose functions have different addresses, the captures have the same outcome exactly if both are
refused or no global holds a reference. -/
theorem capture_sameOutcome_iff (h : SameState m m') (hdiff : DifferentAddresses m.engine m'.engine)
    (point : Int) :
    SameOutcome (capture m point) (capture m' point) ↔ Uncapturable m ∨ NullReferences m := by
  rw [capture_eq, capture_eq, ← captureMemory_congr h.memory, ← captureTables_congr h.tables 0,
    Uncapturable, ← captureMemory_error, ← captureTables_error h.tables 0]
  cases captureMemory m.memory with
  | error err => exact iff_of_true trivial (.inl (.inl ⟨err, rfl⟩))
  | ok memory =>
    cases captureTables m.engine 0 m.tables with
    | error err => exact iff_of_true trivial (.inl (.inr ⟨err, rfl⟩))
    | ok tables =>
      have hlen : (m.globals.map captureGlobal).length = (m'.globals.map captureGlobal).length := by
        rw [List.length_map, List.length_map, h.globals.length_eq]
      have hnone : ∀ {α : Type} {a : α}, ¬ ∃ err : CaptureError, Except.ok a = .error err :=
        fun ⟨_, h⟩ => (by cases h)
      simp only [hnone, or_self, false_or]
      rw [NullReferences, ← map_captureGlobal_eq_iff h.globals hdiff]
      exact ⟨fun hsame => encodeGlobals_inj hlen hsame.1,
        fun heq => ⟨congrArg encodeGlobals heq, rfl⟩⟩

end Capture

/-- An instance with one function, at a given address, which is the only entry of its table. -/
def oneFunction (address : Reference) (h : address ≠ 0) (globals : List GlobalInstance) :
    ModuleInstance where
  globals
  memory := none
  tables := [⟨[address, 0], none, .funcref⟩]
  engine := ⟨[address], List.nodup_singleton _, by simpa using h.symm, by
    rw [List.length_singleton, maximumFunctionIndex]
    decide⟩
  dataInstances := []
  elementInstances := []

theorem sameTables_oneFunction (gs gs' : List GlobalInstance) :
    List.Forall₂
      (SameTable (oneFunction 8 (by decide) gs).engine (oneFunction 16 (by decide) gs').engine)
      (oneFunction 8 (by decide) gs).tables (oneFunction 16 (by decide) gs').tables :=
  .cons ⟨rfl, .cons (.inr ⟨0, rfl, rfl⟩) (.cons (.inl ⟨rfl, rfl⟩) .nil)⟩ .nil

theorem differentAddresses_oneFunction (gs gs' : List GlobalInstance) :
    DifferentAddresses (oneFunction 8 (by decide) gs).engine
      (oneFunction 16 (by decide) gs').engine := by
  intro i r r' hr hr'
  cases i with
  | zero =>
    cases hr
    cases hr'
    decide
  | succ i => cases hr

/-- A numeric global leaves the captures the same. -/
theorem capture_sameOutcome_numeric :
    SameOutcome (capture (oneFunction 8 (by decide) [⟨⟨.i32, true⟩, 5, 0⟩]) 0)
      (capture (oneFunction 16 (by decide) [⟨⟨.i32, true⟩, 5, 0⟩]) 0) := by
  have hsame : SameState (oneFunction 8 (by decide) [⟨⟨.i32, true⟩, 5, 0⟩])
      (oneFunction 16 (by decide) [⟨⟨.i32, true⟩, 5, 0⟩]) :=
    ⟨rfl, .cons ⟨rfl, fun _ => rfl, nofun, rfl⟩ .nil, sameTables_oneFunction _ _⟩
  refine (capture_sameOutcome_iff hsame (differentAddresses_oneFunction _ _) 0).mpr (.inr ?_)
  intro g hg href
  cases List.mem_singleton.mp hg
  cases href

/-- The address of a function in a global goes into the snapshot. -/
theorem capture_engineDependent :
    ∃ m m' : ModuleInstance, SameState m m' ∧ ¬ SameOutcome (capture m 0) (capture m' 0) := by
  refine ⟨oneFunction 8 (by decide) [⟨⟨.ref .funcref, true⟩, 8, 0⟩],
    oneFunction 16 (by decide) [⟨⟨.ref .funcref, true⟩, 16, 0⟩],
    ⟨rfl, .cons ⟨rfl, nofun, fun _ => .inr ⟨0, rfl, rfl⟩, rfl⟩ .nil,
      sameTables_oneFunction _ _⟩, fun h => ?_⟩
  have hbytes : encodeGlobals [⟨0x70, true, 8, 0⟩] = encodeGlobals [⟨0x70, true, 16, 0⟩] := h.1
  exact absurd hbytes (by decide)

end Wasmsnapshot
