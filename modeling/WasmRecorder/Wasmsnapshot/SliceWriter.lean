import WasmRecorder.Lib.Stateful
import WasmRecorder.Wasmsnapshot.Snapshot

/-!
# Cutting a recording into slices

A slice writer is called at every quiescent point of a replay. It lists the points in the index of
the slice that is open, takes snapshots of some of them, seals the slice once it has reached the
chosen size, and opens the next one at the same point.

* `SliceWriter` — its state, with what it touches outside: the recorder that is attached to the
  module, and the host-wide page cache.
* `SliceWriter.atQuiescentPoint`, `SliceWriter.finish` — the two calls.

What happens on disk is an answer of the environment (`Sealing`), and the contents of the host-wide
cache are given anew with every call, since other processes write to it as well.
-/

namespace Wasmsnapshot

open Wasm

structure SlicePolicy where
  everyPoints : Int
  targetBytes : Int
  deriving DecidableEq, Repr

/-- A slice has reached the chosen granularity. -/
def SlicePolicy.sealsAfter (p : SlicePolicy) (span payload : Int) : Bool :=
  if 0 < p.everyPoints ∧ p.everyPoints ≤ span then true
  else if 0 < p.targetBytes ∧ p.targetBytes ≤ payload then true
  else false

inductive SliceError where
  | everyPointsNegative (n : Int)
  | targetBytesNegative (n : Int)
  | snapshotEveryNegative (n : Int)
  | afterFinish (point : Int)
  | outOfOrder (point last : Int)
  | builder (e : BuilderError)
  | capture (e : CaptureError)
  | noSlice
  | container (index : Nat)
  | handOff (index : Nat)
  | finishedTwice
  | noSliceProduced
  | notTiling (index : Nat) (basePoint endPoint : Int)
  deriving DecidableEq, Repr

def SlicePolicy.validate (p : SlicePolicy) : Except SliceError Unit :=
  if p.everyPoints < 0 then .error (.everyPointsNegative p.everyPoints)
  else if p.targetBytes < 0 then .error (.targetBytesNegative p.targetBytes)
  else .ok ()

structure SliceInfo where
  index : Nat
  basePoint : Int
  endPoint : Int
  exportCalls : Int
  snapshots : Nat
  points : Nat
  bytes : Int
  deriving DecidableEq, Repr

structure SliceOptions where
  policy : SlicePolicy
  snapshotEvery : Int
  useSystemCache : Bool
  encode : EncodeOptions
  deriving DecidableEq, Repr

def SliceOptions.validate (o : SliceOptions) : Except SliceError Unit :=
  if o.snapshotEvery < 0 then .error (.snapshotEveryNegative o.snapshotEvery)
  else o.policy.validate

/-- The number of points with a snapshot. -/
def Builder.snapshotCount (b : Builder) : Nat := b.records.countP IndexRecord.hasSnapshot

def Builder.pointCount (b : Builder) : Nat := b.points.length

/-- The slice being filled. -/
structure OpenSlice where
  index : Nat
  basePoint : Int
  points : Nat
  builder : Builder
  /-- The recorder of this slice, by the order in which recorders were made. -/
  recorder : Option Nat

/-- What is known of a slice once its container has been written. -/
def OpenSlice.info (s : OpenSlice) (endPoint bytes : Int) : SliceInfo where
  index := s.index
  basePoint := s.basePoint
  endPoint
  exportCalls := endPoint - s.basePoint
  snapshots := s.builder.snapshotCount
  points := s.builder.pointCount
  bytes

/-- What a sealed container holds: the trace of a recorder, and the streams of a builder. -/
structure SealedSlice where
  info : SliceInfo
  recorder : Option Nat
  builder : Builder

structure SliceWriter where
  opts : SliceOptions
  open_ : Option OpenSlice
  sealed : List SealedSlice
  lastPoint : Int
  finished : Bool
  /-- The recorder the module writes to. -/
  attached : Option Nat
  /-- How many recorders were made. -/
  recorders : Nat
  /-- The host-wide page cache, if there is one. -/
  host : Option SystemCache

/-- What becomes of a seal outside: the size of the container, unless it could not be written, and
whether the caller took it. -/
structure Sealing where
  container : Option Int
  accepted : Bool

/-- A call at a quiescent point. -/
structure Delivery where
  point : Int
  mod : ModuleInstance
  host : Option SystemCache
  sealing : Sealing

abbrev SliceM := EStateM SliceError SliceWriter

def newSliceWriter (opts : SliceOptions) : Except SliceError SliceWriter :=
  match opts.validate with
  | .error e => .error e
  | .ok () => .ok ⟨opts, none, [], 0, false, none, 0, none⟩

/-- A fresh per-trace tier, over the host-wide one. -/
def newTiers (useSystem : Bool) (host : Option SystemCache) : Tiers :=
  ⟨∅, if useSystem then host else none⟩

/-- The tiers, with the present contents of the host-wide one. -/
def Tiers.refresh (t : Tiers) (host : Option SystemCache) : Tiers :=
  { t with system := t.system.map fun c => host.getD c }

namespace SliceWriter

/-- The host-wide cache has the contents that are given, also behind the open slice. -/
def refresh (host : Option SystemCache) (w : SliceWriter) : SliceWriter :=
  { w with
    host
    open_ := w.open_.map fun s =>
      { s with builder := { s.builder with tiers := s.builder.tiers.refresh host } } }

/-- The point is one of those the density asks for. -/
def snapshotDue (opts : SliceOptions) (s : OpenSlice) (point : Int) : Bool :=
  if opts.snapshotEvery ≤ 1 then true
  else decide ((point - s.basePoint).tmod opts.snapshotEvery = 0)

section Calls

variable (hashPage : Bytes → Uint128)

/-- Put a snapshot into the open slice. What the encoder promotes is in the host-wide cache from
then on. -/
def takeSnapshot (point : Int) (mod : ModuleInstance) : SliceM Unit := fun w =>
  match w.open_ with
  | none => .error .noSlice w
  | some s =>
    match capture mod point with
    | .error e => .error (.capture e) w
    | .ok snap =>
      match s.builder.add hashPage snap with
      | .error e => .error (.builder e) w
      | .ok b => .ok () { w with
          open_ := some { s with builder := b }
          host := if b.tiers.system.isSome then b.tiers.system else w.host }

/-- List a point in the index of the open slice. -/
def listPoint (point : Int) : SliceM Unit := fun w =>
  match w.open_ with
  | none => .error .noSlice w
  | some s =>
    -- a slice does not say which crossing comes next
    match s.builder.addPoint ⟨point, point, -1⟩ with
    | .error e => .error (.builder e) w
    | .ok b => .ok () { w with open_ := some { s with builder := b, points := s.points + 1 } }

def addPoint (point : Int) (mod : ModuleInstance) (snapshot : Bool) : SliceM Unit := do
  listPoint point
  if snapshot then takeSnapshot hashPage point mod else pure ()

def markBase (point : Int) : SliceM Unit := fun w =>
  match w.open_ with
  | none => .error .noSlice w
  | some s =>
    match s.builder.markBase point with
    | .error e => .error (.builder e) w
    | .ok b => .ok () { w with open_ := some { s with builder := b } }

/-- A new recorder, for the open slice and for the module. -/
def attachNew : SliceM Unit := fun w =>
  match w.open_ with
  | none => .error .noSlice w
  | some s => .ok () { w with
      open_ := some { s with recorder := some w.recorders }
      attached := some w.recorders
      recorders := w.recorders + 1 }

/-- The slice that begins at a point, without anything in it. -/
def begin_ (point : Int) : SliceM Unit := fun w =>
  .ok () { w with
    open_ := some ⟨w.sealed.length, point, 0,
      newIncrementalBuilder (newTiers w.opts.useSystemCache w.host) w.opts.encode, none⟩ }

def openSliceAt (point : Int) (mod : ModuleInstance) : SliceM Unit := do
  begin_ point
  addPoint hashPage point mod true
  markBase point
  attachNew

/-- Write the open slice out. -/
def seal_ (endPoint : Int) (env : Sealing) : SliceM Unit := fun w =>
  match w.open_ with
  | none => .error .noSlice w
  | some s =>
    let w := { w with open_ := none, attached := none }
    match env.container with
    | none => .error (.container s.index) w
    | some bytes =>
      let w := { w with
        sealed := w.sealed ++ [⟨s.info endPoint bytes, s.recorder, s.builder⟩] }
      if env.accepted then .ok () w else .error (.handOff s.index) w

/-- The open slice has reached the chosen granularity at a point. -/
def sealsAt (point : Int) (w : SliceWriter) : Bool :=
  match w.open_ with
  | none => false
  | some s => w.opts.policy.sealsAfter (point - s.basePoint) s.builder.payloadBytes

/-- A point behind others: it is listed, and it is the base of the next slice if this one is
sealed. -/
def advance (d : Delivery) (s : OpenSlice) : SliceM Unit := do
  let w ← get
  if d.point ≤ w.lastPoint then throw (.outOfOrder d.point w.lastPoint)
  else
    set { w with lastPoint := d.point }
    addPoint hashPage d.point d.mod (snapshotDue w.opts s d.point)
    if sealsAt d.point (← get) then
      seal_ d.point d.sealing
      openSliceAt hashPage d.point d.mod
    else pure ()

/-- The call at a quiescent point. -/
def atQuiescentPoint (d : Delivery) : SliceM Unit := do
  let w ← get
  if w.finished then throw (.afterFinish d.point)
  else
    modify (refresh d.host)
    match w.open_ with
    | none =>
      openSliceAt hashPage d.point d.mod
      modify fun w => { w with lastPoint := d.point }
    | some s => advance hashPage d s

end Calls

/-- Slice `i` ends where slice `i + 1` begins. -/
def checkTiling : List SliceInfo → Except SliceError Unit
  | s :: t :: rest =>
    if t.basePoint ≠ s.endPoint then .error (.notTiling t.index t.basePoint s.endPoint)
    else checkTiling (t :: rest)
  | _ => .ok ()

end SliceWriter

structure SliceManifest where
  totalPoints : Int
  slices : List SliceInfo
  deriving DecidableEq, Repr

namespace SliceWriter

/-- The slice that is still open is sealed, unless no exported call falls into it. -/
def closeLast (env : Sealing) : SliceM Unit := do
  let w ← get
  match w.open_ with
  | none => pure ()
  | some s =>
    if s.basePoint = w.lastPoint then set { w with open_ := none, attached := none }
    else seal_ w.lastPoint env

def manifest : SliceM SliceManifest := do
  let w ← get
  if w.sealed.length = 0 then throw .noSliceProduced
  else
    let slices := w.sealed.map SealedSlice.info
    match checkTiling slices with
    | .error e => throw e
    | .ok () => return ⟨w.lastPoint + 1, slices⟩

def finish (env : Sealing) : SliceM SliceManifest := do
  let w ← get
  if w.finished then throw .finishedTwice
  else
    set { w with finished := true }
    closeLast env
    manifest

end SliceWriter

end Wasmsnapshot
