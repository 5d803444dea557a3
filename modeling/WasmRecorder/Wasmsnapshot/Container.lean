import WasmRecorder.Wasmsnapshot.Streams

/-!
# Snapshot sets

* `Builder` — puts the points and snapshots of a recording into the six streams.
* `load` — reads the six streams back, as a `SnapshotSet`.
* `SnapshotSet.nearest`, `SnapshotSet.snapshot` — the snapshot to resume from, and the state it
  stands for.
-/

namespace Wasmsnapshot

open Checked

/-- A moment when no exported function is executing. -/
structure QuiescentPoint where
  ordinal : Int
  exportsBefore : Int
  crossingSeq : Int
  deriving DecidableEq, Repr

/-- The entire state of a module at a quiescent point. -/
structure Snapshot where
  point : Int
  memoryBytes : UInt64
  memory : Bytes
  globals : List GlobalValue
  tables : List TableValue
  deriving DecidableEq, Repr

/-! ### Writing -/

inductive BuilderError where
  | duplicatePoint (ordinal : Int)
  | outOfOrder (ordinal last : Int)
  | unknownPoint (ordinal : Int)
  | alreadyCarries (ordinal : Int)
  | baseWithoutSnapshot (ordinal : Int)
  | memory (e : PageError)
  deriving DecidableEq, Repr

structure Builder where
  points : List QuiescentPoint
  tiers : Tiers
  opts : EncodeOptions
  records : List IndexRecord
  lay : Bytes
  mem : Bytes
  glob : Bytes
  tab : Bytes
  /-- The position in `records` of a point, by its ordinal. -/
  bySeq : Int → Option Nat

def newIncrementalBuilder (tiers : Tiers) (opts : EncodeOptions) : Builder :=
  { points := [], tiers, opts, records := [], lay := [], mem := [], glob := [], tab := []
    bySeq := fun _ => none }

/-- Put a point at the end. -/
def Builder.push (b : Builder) (p : QuiescentPoint) : Builder :=
  { b with
    bySeq := fun o => if o = p.ordinal then some b.points.length else b.bySeq o
    points := b.points ++ [p]
    records := b.records ++ [{
      ordinal := UInt32.ofInt p.ordinal
      exportsBefore := UInt32.ofInt p.exportsBefore
      crossingSeq := Int32.ofInt p.crossingSeq }] }

/-- Declare a quiescent point. The points come in ascending order. -/
def Builder.addPoint (b : Builder) (p : QuiescentPoint) : Except BuilderError Builder :=
  if (b.bySeq p.ordinal).isSome then .error (.duplicatePoint p.ordinal)
  else match b.points.getLast? with
    | some last =>
      if p.ordinal ≤ last.ordinal then .error (.outOfOrder p.ordinal last.ordinal)
      else .ok (b.push p)
    | none => .ok (b.push p)

/-- The points of a recording that is known to its end. -/
def newBuilder (points : List QuiescentPoint) (tiers : Tiers) (opts : EncodeOptions) :
    Except BuilderError Builder :=
  points.foldlM Builder.addPoint (newIncrementalBuilder tiers opts)

/-- How much snapshot data has accumulated. -/
def Builder.payloadBytes (b : Builder) : Nat :=
  b.lay.length + b.mem.length + b.glob.length + b.tab.length + b.tiers.perTrace.bytes

/-- The offsets of inline regions, counted from the start of the whole inline stream. -/
def Region.rebase (base : UInt64) (r : Region) : Region :=
  match r.kind with
  | .full fileOffset => { r with kind := .full (fileOffset + base) }
  | _ => r

/-- Put the data of a snapshot at the end of the streams, and its places into record `i`. -/
def Builder.store (b : Builder) (i : Nat) (r : IndexRecord) (s : Snapshot) (regions : List Region)
    (inline : Bytes) (tiers : Tiers) : Builder :=
  let layBytes := encodeRegions (regions.map (Region.rebase (UInt64.ofNat b.mem.length)))
  let globBytes := encodeGlobals s.globals
  let tabBytes := encodeTables s.tables
  { b with
    tiers
    records := b.records.set i { r with
      flags := r.flags ||| flagHasSnapshot
      memoryBytes := s.memoryBytes
      layOffset := UInt64.ofNat b.lay.length
      layLength := UInt64.ofNat layBytes.length
      globOffset := UInt64.ofNat b.glob.length
      globLength := UInt64.ofNat globBytes.length
      tabOffset := UInt64.ofNat b.tab.length
      tabLength := UInt64.ofNat tabBytes.length }
    mem := b.mem ++ inline
    lay := b.lay ++ layBytes
    glob := b.glob ++ globBytes
    tab := b.tab ++ tabBytes }

/-- Put a snapshot at one of the declared points. -/
def Builder.add (hashPage : Bytes → Uint128) (b : Builder) (s : Snapshot) :
    Except BuilderError Builder :=
  match b.bySeq s.point with
  | none => .error (.unknownPoint s.point)
  | some i =>
    match b.records[i]? with
    | none => .error (.unknownPoint s.point)
    | some r =>
      if r.hasSnapshot then .error (.alreadyCarries s.point)
      else
        match encodeMemory hashPage s.memory b.tiers 0 b.opts with
        | .error e => .error (.memory e)
        | .ok (regions, inline, tiers) => .ok (b.store i r s regions inline tiers)

/-- Mark a point as the base of a slice. -/
def Builder.markBase (b : Builder) (point : Int) : Except BuilderError Builder :=
  match b.bySeq point with
  | none => .error (.unknownPoint point)
  | some i =>
    match b.records[i]? with
    | none => .error (.unknownPoint point)
    | some r =>
      if r.hasSnapshot then
        .ok { b with records := b.records.set i { r with flags := r.flags ||| flagBaseSnapshot } }
      else .error (.baseWithoutSnapshot point)

/-- The six streams of a snapshot set. -/
structure Streams where
  index : Bytes
  layout : Bytes
  inlineMem : Bytes
  pages : Bytes
  globals : Bytes
  tables : Bytes

/-! ### Reading -/

/-- A snapshot set that was read back. -/
structure SnapshotSet where
  records : List IndexRecord
  lay : Bytes
  mem : Bytes
  glob : Bytes
  tab : Bytes
  tiers : Tiers

inductive LoadError where
  | index (e : StreamError)
  | pages (e : PageStoreError)
  deriving DecidableEq, Repr

section Load

variable (hashPage : Bytes → Uint128)

/-- The streams, decoded. -/
def loadStreams (s : Streams) (system : Option SystemCache) :
    Except (Fault LoadError) SnapshotSet := do
  let records ← mapFault .index (decodeIndex s.index)
  let pages ← mapFault .pages (decodePageStore hashPage s.pages)
  return {
    records
    lay := s.layout
    mem := s.inlineMem
    glob := s.globals
    tab := s.tables
    tiers := ⟨pages, system⟩ }

/-- What becomes of a container: snapshots of a version that is not known only disable seeking. -/
inductive Loaded where
  | set (s : SnapshotSet)
  | unsupported (version : UInt16)

def load (s : Streams) (system : Option SystemCache) : Except (Fault LoadError) Loaded :=
  match loadStreams hashPage s system with
  | .ok set => .ok (.set set)
  | .error (.error (.index (.unsupportedVersion v))) => .ok (.unsupported v)
  | .error (.error (.pages (.unsupportedVersion v))) => .ok (.unsupported v)
  | .error e => .error e

end Load

/-- The last record with a snapshot that is not past a point. -/
def SnapshotSet.nearest (s : SnapshotSet) (point : Int) : Option IndexRecord :=
  (s.records.takeWhile fun r => decide ((r.ordinal.toNat : Int) ≤ point)).reverse.find?
    IndexRecord.hasSnapshot

inductive SetError where
  | noSnapshot (ordinal : UInt32)
  | sliceRange (off length : UInt64) (size : Nat)
  | stream (e : StreamError)
  | memory (e : PageError)
  deriving DecidableEq, Repr

/-- The bytes of one snapshot in a stream. -/
def sliceOf (b : Bytes) (off length : UInt64) : Except (Fault SetError) Bytes :=
  if b.length < (off + length).toNat then .error (.error (.sliceRange off length b.length))
  else sub b off.toNat (off + length).toNat

/-- The state that was captured at a point. -/
def SnapshotSet.snapshot (hashPage : Bytes → Uint128) (s : SnapshotSet) (r : IndexRecord) :
    Except (Fault SetError) Snapshot := do
  if ¬ r.hasSnapshot then .error (.error (.noSnapshot r.ordinal))
  else
    let lay ← sliceOf s.lay r.layOffset r.layLength
    let regions ← mapFault .stream (decodeRegions lay)
    let memory ← mapFault .memory (materialiseMemory hashPage regions s.mem s.tiers r.memoryBytes)
    let globRaw ← sliceOf s.glob r.globOffset r.globLength
    let globals ← mapFault .stream (decodeGlobals globRaw)
    let tabRaw ← sliceOf s.tab r.tabOffset r.tabLength
    let tables ← mapFault .stream (decodeTables tabRaw)
    return {
      point := r.ordinal.toNat
      memoryBytes := r.memoryBytes
      memory := if 0 < r.memoryBytes then memory else []
      globals
      tables }

/-! ### Calls that succeed -/

theorem addPoint_ok {b b' : Builder} {p : QuiescentPoint} (h : b.addPoint p = .ok b') :
    b' = b.push p ∧ ∀ last, b.points.getLast? = some last → last.ordinal < p.ordinal := by
  rw [Builder.addPoint] at h
  split at h
  · cases h
  split at h
  · next last hlast =>
    split at h
    · cases h
    · next hle =>
      cases h
      refine ⟨rfl, fun last' hlast' => ?_⟩
      cases hlast.symm.trans hlast'
      exact not_le.mp hle
  · next hnone =>
    cases h
    refine ⟨rfl, fun last hlast => ?_⟩
    cases hnone.symm.trans hlast

theorem markBase_ok {b b' : Builder} {point : Int} (h : b.markBase point = .ok b') :
    ∃ i r, b.bySeq point = some i ∧ b.records[i]? = some r ∧
      b' = { b with
        records := b.records.set i { r with flags := r.flags ||| flagBaseSnapshot } } := by
  rw [Builder.markBase] at h
  split at h
  · cases h
  next i hi =>
  split at h
  · cases h
  next r hr =>
  split at h
  · cases h
    exact ⟨i, r, hi, hr, rfl⟩
  · cases h

theorem add_ok {hashPage : Bytes → Uint128} {b b' : Builder} {s : Snapshot}
    (h : b.add hashPage s = .ok b') :
    ∃ i r regions inline tiers, b.bySeq s.point = some i ∧ b.records[i]? = some r ∧
      encodeMemory hashPage s.memory b.tiers 0 b.opts = .ok (regions, inline, tiers) ∧
      b' = b.store i r s regions inline tiers := by
  rw [Builder.add] at h
  split at h
  · cases h
  next i hi =>
  split at h
  · cases h
  next r hr =>
  split at h
  · cases h
  split at h
  · cases h
  next regions inline tiers hmemory =>
  cases h
  exact ⟨i, r, regions, inline, tiers, hi, hr, hmemory, rfl⟩

end Wasmsnapshot
