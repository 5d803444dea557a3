import WasmRecorder.Wasmsnapshot.PageCas

/-!
# The snapshot streams

The encodings of the streams of a snapshot set that are not namespaces.

* `encodeRegions`, `decodeRegions` — the regions of a memory.
* `encodeGlobals`, `decodeGlobals`, `encodeTables`, `decodeTables` — the rest of the state.

A decoder that takes a slice of its input at a wrong place panics, so every access is checked here.
-/

namespace Wasmsnapshot

open Checked LittleEndian Slice

inductive StreamError where
  | indexTooShort (length : Nat)
  | indexMagic
  | unsupportedVersion (version : UInt16)
  | indexPageSize (size : UInt32)
  | casFormat (got : Bytes)
  | recordCount (n length : Nat)
  | truncated (n off length : Nat)
  | hashCount (n left : Nat)
  | regionCount (n length : Nat)
  | reservedBytes (region : Nat)
  | runCount (region runs : Nat)
  | unknownKind (region : Nat) (kind : UInt8)
  | globalsTooShort (length : Nat)
  | globalCount (n length : Nat)
  | tablesTooShort (length : Nat)
  | tableTruncated (table : Nat)
  | elementCount (table count length : Nat)
  | tablesTrailing (left : Nat)
  deriving DecidableEq, Repr

/-! ### The index -/

/-- The characters `SNPI`. -/
def indexMagic : Bytes := [0x53, 0x4e, 0x50, 0x49]

def indexHeaderSize : Nat := 32

def indexRecordSize : Nat := 72

/-- The characters `page-xxh3-128`. -/
def casFormat : Bytes :=
  [0x70, 0x61, 0x67, 0x65, 0x2d, 0x78, 0x78, 0x68, 0x33, 0x2d, 0x31, 0x32, 0x38]

def flagHasSnapshot : UInt32 := 1

def flagBaseSnapshot : UInt32 := 2

/-- One quiescent point, with the places of its data in the other streams. -/
structure IndexRecord where
  ordinal : UInt32
  exportsBefore : UInt32
  crossingSeq : Int32
  flags : UInt32 := 0
  memoryBytes : UInt64 := 0
  layOffset : UInt64 := 0
  layLength : UInt64 := 0
  globOffset : UInt64 := 0
  globLength : UInt64 := 0
  tabOffset : UInt64 := 0
  tabLength : UInt64 := 0
  deriving DecidableEq, Repr

def IndexRecord.hasSnapshot (r : IndexRecord) : Bool := r.flags &&& flagHasSnapshot ≠ 0

def IndexRecord.isBase (r : IndexRecord) : Bool := r.flags &&& flagBaseSnapshot ≠ 0

def IndexRecord.bytes (r : IndexRecord) : Bytes :=
  le32 r.ordinal ++ (le32 r.exportsBefore ++ (le32 r.crossingSeq.toUInt32 ++ (le32 r.flags ++
    (le64 r.memoryBytes ++ (le64 r.layOffset ++ (le64 r.layLength ++ (le64 r.globOffset ++
      (le64 r.globLength ++ (le64 r.tabOffset ++ le64 r.tabLength)))))))))

def indexHeader (count : Nat) : Bytes :=
  indexMagic ++ (le16 snapshotFormatVersion ++ (le16 0 ++ (le32 (UInt32.ofNat pageSize) ++
    (le32 (UInt32.ofNat count) ++ (casFormat ++ [0, 0, 0])))))

def encodeIndex (records : List IndexRecord) : Bytes :=
  indexHeader records.length ++ records.flatMap IndexRecord.bytes

/-- What stands in front of the first zero. -/
def trimNul (b : Bytes) : Bytes := b.takeWhile (· ≠ 0)

/-- The record at an offset. -/
def decodeRecord (raw : Bytes) (off : Nat) : Except (Fault StreamError) IndexRecord := do
  let b ← sub raw off raw.length
  return {
    ordinal := ← uint32 b 0
    exportsBefore := ← uint32 b 4
    crossingSeq := (← uint32 b 8).toInt32
    flags := ← uint32 b 12
    memoryBytes := ← uint64 b 16
    layOffset := ← uint64 b 24
    layLength := ← uint64 b 32
    globOffset := ← uint64 b 40
    globLength := ← uint64 b 48
    tabOffset := ← uint64 b 56
    tabLength := ← uint64 b 64 }

def decodeIndex (raw : Bytes) : Except (Fault StreamError) (List IndexRecord) := do
  if raw.length < indexHeaderSize then .error (.error (.indexTooShort raw.length))
  else if (← sub raw 0 4) ≠ indexMagic then .error (.error .indexMagic)
  else
    let version ← uint16 raw 4
    if version ≠ snapshotFormatVersion then .error (.error (.unsupportedVersion version))
    else
      let size ← uint32 raw 8
      if size ≠ UInt32.ofNat pageSize then .error (.error (.indexPageSize size))
      else
        let got := trimNul (← sub raw 16 32)
        if got ≠ casFormat then .error (.error (.casFormat got))
        else
          let n := (← uint32 raw 12).toNat
          if indexHeaderSize + n * indexRecordSize ≠ raw.length then
            .error (.error (.recordCount n raw.length))
          else (List.range n).mapM fun i => decodeRecord raw (indexHeaderSize + i * indexRecordSize)

/-! ### The layout -/

def hashesBytes (hashes : List Uint128) : Bytes := hashes.flatMap Uint128.bytes

def HashRun.bytes (run : HashRun) : Bytes :=
  le64 run.cacheID ++ (le32 (UInt32.ofNat run.hashes.length) ++ hashesBytes run.hashes)

def kindFull : UInt8 := 0

def kindHashRef : UInt8 := 1

def kindRunHashRef : UInt8 := 2

def RegionKind.tag : RegionKind → UInt8
  | .full _ => kindFull
  | .hashRef _ => kindHashRef
  | .runHashRef _ => kindRunHashRef

def RegionKind.bytes : RegionKind → Bytes
  | .full fileOffset => le64 fileOffset
  | .hashRef hashes => le32 (UInt32.ofNat hashes.length) ++ hashesBytes hashes
  | .runHashRef runs => le32 (UInt32.ofNat runs.length) ++ runs.flatMap HashRun.bytes

def Region.bytes (r : Region) : Bytes :=
  le64 r.base ++ (le64 r.size ++ (le32 r.protect ++ (le32 r.flags ++
    ([r.kind.tag, 0, 0, 0] ++ r.kind.bytes))))

def encodeRegions (regions : List Region) : Bytes :=
  le32 (UInt32.ofNat regions.length) ++ regions.flatMap Region.bytes

/-- A cursor. Once it has failed, it reads zeros. -/
structure RegionReader where
  b : Bytes
  off : Nat
  err : Option StreamError
  deriving DecidableEq, Repr

/-- A computation of the layout's decoder. -/
abbrev Decode (α : Type) : Type := RegionReader → Except (Fault StreamError) (α × RegionReader)

namespace RegionReader

def need (n : Nat) : Decode Bytes := fun r =>
  if r.err.isSome then return (List.replicate n 0, r)
  else if r.b.length < r.off + n then
    return (List.replicate n 0, { r with err := some (.truncated n r.off r.b.length) })
  else do
    let s ← sub r.b r.off (r.off + n)
    return (s, { r with off := r.off + n })

def u32 : Decode UInt32 := fun r => do
  let (s, r) ← need 4 r
  return (← uint32 s 0, r)

def u64 : Decode UInt64 := fun r => do
  let (s, r) ← need 8 r
  return (← uint64 s 0, r)

/-- The error the cursor has run into. -/
def failed (r : RegionReader) : Except (Fault StreamError) Unit :=
  match r.err with
  | some e => .error (.error e)
  | none => .ok ()

def hashList : Nat → Decode (List Uint128)
  | 0, r => return ([], r)
  | n + 1, r => do
    let (s, r) ← need 16 r
    let (hs, r) ← hashList n r
    return (uint128FromBytes s :: hs, r)

/-- The count is checked against what is left before anything is allocated. -/
def hashes (n : UInt32) : Decode (List Uint128) := fun r => do
  if r.b.length - r.off < n.toNat * 16 then
    .error (.error (.hashCount n.toNat (r.b.length - r.off)))
  else
    let (hs, r) ← hashList n.toNat r
    r.failed
    return (hs, r)

def countedHashes : Decode (List Uint128) := fun r => do
  let (c, r) ← u32 r
  r.failed
  hashes c r

def runList : Nat → Decode (List HashRun)
  | 0, r => return ([], r)
  | n + 1, r => do
    let (cacheID, r) ← u64 r
    let (hashes, r) ← countedHashes r
    let (runs, r) ← runList n r
    return (⟨cacheID, hashes⟩ :: runs, r)

end RegionReader

/-- What a region consists of. -/
def decodeKind (i : Nat) (kind : UInt8) : Decode RegionKind := fun r => do
  if kind = kindFull then
    let (fileOffset, r) ← r.u64
    return (.full fileOffset, r)
  else if kind = kindHashRef then
    let (hashes, r) ← r.countedHashes
    return (.hashRef hashes, r)
  else if kind = kindRunHashRef then
    let (runs, r) ← r.u32
    r.failed
    if r.b.length - r.off < runs.toNat * 12 then .error (.error (.runCount i runs.toNat))
    else
      let (runs, r) ← r.runList runs.toNat
      return (.runHashRef runs, r)
  else .error (.error (.unknownKind i kind))

/-- The `i`-th region. -/
def decodeRegion (i : Nat) : Decode Region := fun r => do
  let (base, r) ← r.u64
  let (size, r) ← r.u64
  let (protect, r) ← r.u32
  let (flags, r) ← r.u32
  let (kb, r) ← r.need 4
  if (← byteAt kb 1) ≠ 0 ∨ (← byteAt kb 2) ≠ 0 ∨ (← byteAt kb 3) ≠ 0 then
    .error (.error (.reservedBytes i))
  else
    r.failed
    let (kind, r) ← decodeKind i (← byteAt kb 0) r
    r.failed
    return (⟨base, size, protect, flags, kind⟩, r)

/-- The regions from the `i`-th on. -/
def decodeRegionList (i : Nat) : Nat → Decode (List Region)
  | 0, r => return ([], r)
  | n + 1, r => do
    let (region, r) ← decodeRegion i r
    let (regions, r) ← decodeRegionList (i + 1) n r
    return (region :: regions, r)

def decodeRegions (raw : Bytes) : Except (Fault StreamError) (List Region) := do
  if raw.length = 0 then return []
  else
    let (n, r) ← RegionReader.u32 ⟨raw, 0, none⟩
    r.failed
    if raw.length < n.toNat * 32 then .error (.error (.regionCount n.toNat raw.length))
    else
      let (regions, _) ← decodeRegionList 0 n.toNat r
      return regions

/-! ### Globals and tables -/

/-- The value of a global. -/
structure GlobalValue where
  valueType : UInt8
  isMutable : Bool
  lo : UInt64
  hi : UInt64
  deriving DecidableEq, Repr

/-- The contents of a table: a function index for each slot, or `nullElement`. -/
structure TableValue where
  refType : UInt8
  elements : List Int32
  deriving DecidableEq, Repr

def nullElement : Int32 := -1

def globalRecordSize : Nat := 20

def GlobalValue.bytes (g : GlobalValue) : Bytes :=
  [g.valueType, if g.isMutable then 1 else 0, 0, 0] ++ (le64 g.lo ++ le64 g.hi)

def encodeGlobals (gs : List GlobalValue) : Bytes :=
  le32 (UInt32.ofNat gs.length) ++ gs.flatMap GlobalValue.bytes

/-- The global at an offset. -/
def decodeGlobal (raw : Bytes) (off : Nat) : Except (Fault StreamError) GlobalValue := do
  let b ← sub raw off raw.length
  return {
    valueType := ← byteAt b 0
    isMutable := (← byteAt b 1) ≠ 0
    lo := ← uint64 b 4
    hi := ← uint64 b 12 }

def decodeGlobals (raw : Bytes) : Except (Fault StreamError) (List GlobalValue) := do
  if raw.length = 0 then return []
  else if raw.length < 4 then .error (.error (.globalsTooShort raw.length))
  else
    let n := (← uint32 raw 0).toNat
    if 4 + n * globalRecordSize ≠ raw.length then .error (.error (.globalCount n raw.length))
    else (List.range n).mapM fun i => decodeGlobal raw (4 + i * globalRecordSize)

def TableValue.bytes (t : TableValue) : Bytes :=
  [t.refType, 0, 0, 0] ++ (le32 (UInt32.ofNat t.elements.length) ++
    t.elements.flatMap fun e => le32 e.toUInt32)

def encodeTables (ts : List TableValue) : Bytes :=
  le32 (UInt32.ofNat ts.length) ++ ts.flatMap TableValue.bytes

/-- The tables from the `i`-th on, with the offset behind the last of them. -/
def decodeTableList (raw : Bytes) (i : Nat) :
    Nat → Nat → Except (Fault StreamError) (List TableValue × Nat)
  | 0, off => return ([], off)
  | n + 1, off => do
    if raw.length < off + 8 then .error (.error (.tableTruncated i))
    else
      let refType ← byteAt raw off
      let count := (← uint32 raw (off + 4)).toNat
      if raw.length < off + 8 + count * 4 then
        .error (.error (.elementCount i count raw.length))
      else
        let elements ← (List.range count).mapM fun j => uint32 raw (off + 8 + j * 4)
        let (ts, off) ← decodeTableList raw (i + 1) n (off + 8 + count * 4)
        return (⟨refType, elements.map UInt32.toInt32⟩ :: ts, off)

def decodeTables (raw : Bytes) : Except (Fault StreamError) (List TableValue) := do
  if raw.length = 0 then return []
  else if raw.length < 4 then .error (.error (.tablesTooShort raw.length))
  else
    let n := (← uint32 raw 0).toNat
    let (ts, off) ← decodeTableList raw 0 n 4
    if off ≠ raw.length then .error (.error (.tablesTrailing (raw.length - off))) else return ts

end Wasmsnapshot
