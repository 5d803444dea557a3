import WasmRecorder.Wasmsnapshot.Nsb1

/-!
# Content-addressed pages

Memory pages are stored under their hash, in two tiers: the per-trace cache, which is written into
the container, and the host-wide system cache.

* `encodeMemory`, `materialiseMemory` — a memory as regions of page references, and back.
* `encodePageStoreKeyed`, `decodePageStoreKeyed` — the per-trace cache as a namespace: every key
  leads to a chain of records, one for each page whose hash is truncated to that key.

The hash function is a parameter: nothing here depends on which one it is. A map of the source is
an association list without duplicate keys, and the order of the list is the order in which the
map happens to be iterated.
-/

namespace Wasmsnapshot

open Checked LittleEndian Slice

/-- A 128-bit digest. -/
structure Uint128 where
  lo : UInt64
  hi : UInt64
  deriving DecidableEq, Repr

def Uint128.bytes (h : Uint128) : Bytes := le64 h.lo ++ le64 h.hi

def uint128FromBytes (b : Bytes) : Uint128 := ⟨u64At b 0, u64At b 8⟩

theorem length_bytes (h : Uint128) : h.bytes.length = 16 := by
  rw [Uint128.bytes, List.length_append, length_le64, length_le64]

theorem uint128FromBytes_bytes (h : Uint128) : uint128FromBytes h.bytes = h := by
  have hlo : u64At h.bytes 0 = h.lo := by
    have hread : u64At ([] ++ le64 h.lo ++ le64 h.hi) 0 = h.lo := u64At_append rfl
    exact hread
  have hhi : u64At h.bytes 8 = h.hi := by
    have hread : u64At (le64 h.lo ++ le64 h.hi ++ []) 8 = h.hi := u64At_append (length_le64 _)
    rwa [List.append_nil] at hread
  rw [uint128FromBytes, hlo, hhi]

def pageSize : Nat := 65536

/-- A page of zeroes. -/
def zeroPage : Bytes := List.replicate pageSize 0

theorem length_zeroPage : zeroPage.length = pageSize := List.length_replicate

def cacheIDPerTrace : UInt64 := 0

def cacheIDSystem : UInt64 := 1

/-! ### The tiers -/

/-- The pages a recording introduced, by their full hash. -/
abbrev PerTraceCache := AList fun _ : Uint128 => Bytes

/-- A page that is there already is kept. -/
def PerTraceCache.insert (c : PerTraceCache) (h : Uint128) (page : Bytes) : PerTraceCache :=
  if h ∈ c then c else AList.insert h page c

theorem mem_insert_perTrace {c : PerTraceCache} {h h' : Uint128} {page : Bytes} :
    h' ∈ c.insert h page ↔ h' = h ∨ h' ∈ c := by
  rw [PerTraceCache.insert]
  split
  · next hmem => exact ⟨.inr, fun h' => h'.elim (fun heq => heq ▸ hmem) id⟩
  · exact AList.mem_insert c

/-- The total content held. -/
def PerTraceCache.bytes (c : PerTraceCache) : Nat := (c.entries.map fun e => e.2.length).sum

/-- The host-wide tier: the content of each page file, and the files that cannot be created. -/
structure SystemCache where
  files : Uint128 → Option Bytes
  denied : Uint128 → Bool

section Tiers

variable (hashPage : Bytes → Uint128)

/-- A file whose content does not have its name as its hash counts as missing. -/
def SystemCache.lookup (c : SystemCache) (h : Uint128) : Option Bytes :=
  (c.files h).filter fun data => hashPage data = h

/-- A file that exists is left alone. -/
def SystemCache.insert (c : SystemCache) (h : Uint128) (page : Bytes) : Option SystemCache :=
  if (c.files h).isSome then some c
  else if c.denied h then none
  else some { c with files := fun h' => if h' = h then some page else c.files h' }

structure Tiers where
  perTrace : PerTraceCache
  system : Option SystemCache

/-- The page, and the tier that holds it. -/
def Tiers.lookup (t : Tiers) (h : Uint128) : Option (Bytes × UInt64) :=
  match AList.lookup h t.perTrace with
  | some page => some (page, cacheIDPerTrace)
  | none => (t.system.bind fun c => c.lookup hashPage h).map fun page => (page, cacheIDSystem)

end Tiers

/-! ### Memory as regions -/

structure HashRun where
  cacheID : UInt64
  hashes : List Uint128
  deriving DecidableEq, Repr

/-- What a region consists of: a stretch of the inline stream, page hashes, or runs of page hashes
that were found in one tier each. -/
inductive RegionKind where
  | full (fileOffset : UInt64)
  | hashRef (hashes : List Uint128)
  | runHashRef (runs : List HashRun)
  deriving DecidableEq, Repr

structure Region where
  base : UInt64
  size : UInt64
  protect : UInt32
  flags : UInt32
  kind : RegionKind
  deriving DecidableEq, Repr

structure EncodeOptions where
  inlineMissedPages : Bool
  promoteToSystem : Bool
  deriving DecidableEq, Repr

inductive PageError where
  | notWholePages (length : Nat)
  | promotion (h : Uint128)
  | regionPastEnd (base size memory : UInt64)
  | inlinePastEnd (base fileOffset : UInt64) (length : Nat)
  | missingPage (h : Uint128) (cacheID : UInt64)
  | cachedPageSize (h : Uint128) (length : Nat)
  | runPastEnd
  | coverage (covered size : UInt64)
  deriving DecidableEq, Repr

/-- The region of hash runs being extended. -/
structure OpenRegion where
  base : UInt64
  size : UInt64
  runs : List HashRun
  deriving DecidableEq, Repr

/-- Put a hash at the end of the last run, or into a new run if that one is of another tier. -/
def extendRuns (runs : List HashRun) (tier : UInt64) (h : Uint128) : List HashRun :=
  match runs.getLast? with
  | some run =>
    if run.cacheID = tier then runs.dropLast ++ [{ run with hashes := run.hashes ++ [h] }]
    else runs ++ [⟨tier, [h]⟩]
  | none => [⟨tier, [h]⟩]

def OpenRegion.extend (r : OpenRegion) (tier : UInt64) (h : Uint128) : OpenRegion :=
  { r with runs := extendRuns r.runs tier h, size := r.size + UInt64.ofNat pageSize }

def OpenRegion.close (r : OpenRegion) : Region := ⟨r.base, r.size, 0, 0, .runHashRef r.runs⟩

structure EncodeState where
  regions : List Region
  cur : Option OpenRegion
  inline : Bytes
  tiers : Tiers

def EncodeState.flushRegion (s : EncodeState) : EncodeState :=
  { s with regions := s.regions ++ (s.cur.map OpenRegion.close).toList, cur := none }

section Memory

variable (hashPage : Bytes → Uint128)

/-- The promotion of a page that some tier holds, into the system cache. -/
def promote (opts : EncodeOptions) (t : Tiers) (h : Uint128) (page : Bytes) :
    Except PageError Tiers :=
  match t.system with
  | none => .ok t
  | some c =>
    if opts.promoteToSystem ∧ c.lookup hashPage h = none then
      match c.insert h page with
      | some c' => .ok { t with system := some c' }
      | none => .error (.promotion h)
    else .ok t

/-- One page. A page no tier holds is put inline, or else into the per-trace cache. -/
def encodePage (opts : EncodeOptions) (off : UInt64) (s : EncodeState) (page : Bytes) :
    Except PageError EncodeState :=
  let h := hashPage page
  let found := s.tiers.lookup hashPage h
  if found = none ∧ opts.inlineMissedPages then
    let s := s.flushRegion
    .ok { s with
      regions := s.regions ++
        [⟨off, UInt64.ofNat pageSize, 0, 0, .full (UInt64.ofNat s.inline.length)⟩]
      inline := s.inline ++ page }
  else do
    let (tiers, tier) : Tiers × UInt64 := match found with
      | some (_, tier) => (s.tiers, tier)
      | none => ({ s.tiers with perTrace := s.tiers.perTrace.insert h page }, cacheIDPerTrace)
    let tiers ← promote hashPage opts tiers h page
    let cur := s.cur.getD ⟨off, 0, []⟩
    return { s with cur := some (cur.extend tier h), tiers }

/-- The pages from the `i`-th on. -/
def encodePages (opts : EncodeOptions) (memBase : UInt64) :
    Nat → List Bytes → EncodeState → Except PageError EncodeState
  | _, [], s => .ok s
  | i, page :: pages, s => do
    let s ← encodePage hashPage opts (memBase + UInt64.ofNat i * UInt64.ofNat pageSize) s page
    encodePages opts memBase (i + 1) pages s

/-- A memory as regions. The second component is what goes into the inline stream. -/
def encodeMemory (memory : Bytes) (tiers : Tiers) (memBase : UInt64) (opts : EncodeOptions) :
    Except PageError (List Region × Bytes × Tiers) := do
  if memory.length % pageSize ≠ 0 then .error (.notWholePages memory.length)
  else
    let s ← encodePages hashPage opts memBase 0 (Runs.runs pageSize memory)
      ⟨[], none, [], tiers⟩
    let s := s.flushRegion
    return (s.regions, s.inline, s.tiers)

/-- The pages of a run, put into a memory. -/
def writePages (t : Tiers) (cacheID : UInt64) :
    UInt64 → List Uint128 → Bytes → Except (Fault PageError) Bytes
  | _, [], out => return out
  | at_, h :: hashes, out => do
    match t.lookup hashPage h with
    | none => .error (.error (.missingPage h cacheID))
    | some (page, _) =>
      let next := at_ + UInt64.ofNat pageSize
      if page.length ≠ pageSize then .error (.error (.cachedPageSize h page.length))
      else if out.length < next.toNat then .error (.error .runPastEnd)
      else
        let _ ← sub out at_.toNat next.toNat
        writePages t cacheID next hashes (← put out at_.toNat page)

/-- The runs of a region, put into a memory; also how many bytes they cover. -/
def writeRuns (t : Tiers) :
    UInt64 → List HashRun → Bytes × UInt64 → Except (Fault PageError) (Bytes × UInt64)
  | _, [], s => return s
  | at_, run :: runs, (out, covered) => do
    let out ← writePages hashPage t run.cacheID at_ run.hashes out
    let length := UInt64.ofNat run.hashes.length * UInt64.ofNat pageSize
    writeRuns t (at_ + length) runs (out, covered + length)

/-- One region, put into a memory. -/
def writeRegion (inline : Bytes) (t : Tiers) (size : UInt64) (s : Bytes × UInt64) (r : Region) :
    Except (Fault PageError) (Bytes × UInt64) := do
  let (out, covered) := s
  if size < r.base + r.size then .error (.error (.regionPastEnd r.base r.size size))
  else match r.kind with
    | .full fileOffset =>
      let stop := fileOffset + r.size
      if inline.length < stop.toNat then
        .error (.error (.inlinePastEnd r.base fileOffset inline.length))
      else
        let _ ← sub out r.base.toNat (r.base + r.size).toNat
        let bytes ← sub inline fileOffset.toNat stop.toNat
        return (← put out r.base.toNat bytes, covered + r.size)
    | .hashRef hashes =>
      let out ← writePages hashPage t cacheIDPerTrace r.base hashes out
      return (out, covered + UInt64.ofNat hashes.length * UInt64.ofNat pageSize)
    | .runHashRef runs => writeRuns hashPage t r.base runs (out, covered)

/-- The largest slice the runtime allocates, in bytes. -/
def maxAlloc : Nat := 2 ^ 48

/-- A memory from its regions. -/
def materialiseMemory (regions : List Region) (inline : Bytes) (t : Tiers) (size : UInt64) :
    Except (Fault PageError) Bytes := do
  let out ← make maxAlloc 1 size.toNat 0
  let (out, covered) ← regions.foldlM (writeRegion hashPage inline t size) (out, 0)
  if covered ≠ size then .error (.error (.coverage covered size)) else return out

end Memory

/-! ### The page store -/

def pageRecordHeaderSize : Nat := 24

def pageStoreDescSize : Nat := nsDescSizeTypeB

def pageStoreFlags : UInt8 := nsFlagLeafTypeB ||| nsFlagSkipSubBlocks

/-- The characters `SNPV`. -/
def pageStoreSidecarMagic : Bytes := [0x53, 0x4e, 0x50, 0x56]

def pageStoreSidecarOffset : Nat := 64

def pageStoreSidecarSize : Nat := 16

def snapshotFormatVersion : UInt16 := 1

/-- The key a page is filed under in production. -/
def truncatedKey (h : Uint128) : UInt64 := h.lo

/-- The order of the records in a chain: by the high half, then by the low half. -/
def Uint128.le (a b : Uint128) : Bool :=
  if a.hi ≠ b.hi then decide (a.hi < b.hi) else decide (a.lo ≤ b.lo)

section Store

variable (keyOf : Uint128 → UInt64)

/-- The keys of a page store, in ascending order. -/
def storeKeys (c : PerTraceCache) : List UInt64 :=
  (c.keys.map keyOf).dedup.mergeSort fun a b => decide (a ≤ b)

/-- The pages filed under a key, in a fixed order. -/
def chainOf (c : PerTraceCache) (key : UInt64) : List Uint128 :=
  (c.keys.filter fun h => keyOf h = key).mergeSort Uint128.le

def pageRecord (h : Uint128) (page : Bytes) : Bytes :=
  h.bytes ++ le32 (UInt32.ofNat page.length) ++ le32 0 ++ page

/-- The records of a key. -/
def chainBytes (c : PerTraceCache) (key : UInt64) : Bytes :=
  (chainOf keyOf c key).flatMap fun h => pageRecord h ((c.lookup h).getD [])

/-- The chains one behind the other, with a descriptor for each. -/
def appendChains (c : PerTraceCache) (payloadBase : UInt64) :
    List UInt64 → Bytes × List NsEntry → Bytes × List NsEntry
  | [], s => s
  | key :: keys, (payload, final) =>
    let start := payloadBase + UInt64.ofNat payload.length
    let payload := payload ++ chainBytes keyOf c key
    let desc := le64 start ++ le64 (payloadBase + UInt64.ofNat payload.length - start)
    appendChains c payloadBase keys (payload, final ++ [(key, desc)])

/-- A bulk load that has to succeed. -/
def orPanic (r : Except (Fault NsError) Bytes) : Except (Fault Empty) Bytes :=
  match r with
  | .ok image => .ok image
  | .error _ => .error .panic

def writePageStoreSidecar (image : Bytes) (keyCount : Nat) : Except (Fault Empty) Bytes := do
  let image ← put image pageStoreSidecarOffset pageStoreSidecarMagic
  let image ← put image (pageStoreSidecarOffset + 4) (le16 snapshotFormatVersion)
  let image ← put image (pageStoreSidecarOffset + 6) (le16 0)
  let image ← put image (pageStoreSidecarOffset + 8) (le32 (UInt32.ofNat pageSize))
  put image (pageStoreSidecarOffset + 12) (le32 (UInt32.ofNat keyCount))

/-- The bytes of all records. -/
def payloadBytes (c : PerTraceCache) : Nat :=
  (c.entries.map fun e => pageRecordHeaderSize + e.2.length).sum

/-- The padding that makes the payload end at a page boundary. -/
def payloadPad (c : PerTraceCache) : Nat := (nsPageSize - payloadBytes c % nsPageSize) % nsPageSize

/-- The per-trace cache as a namespace. It is built twice: the descriptors are offsets behind an
image whose size is known only once it has been built. -/
def encodePageStoreKeyed (c : PerTraceCache) : Except (Fault Empty) Bytes := do
  let keys := storeKeys keyOf c
  let zero : Bytes := List.replicate pageStoreDescSize 0
  let sizingImage ← orPanic
    (nsBulkLoad (keys.map fun k => (k, zero)) pageStoreDescSize pageStoreFlags)
  let pad := payloadPad c
  let payloadBase := UInt64.ofNat (sizingImage.length + pad)
  let (payload, final) := appendChains keyOf c payloadBase keys ([], [])
  let image ← orPanic (nsBulkLoad final pageStoreDescSize pageStoreFlags)
  if UInt64.ofNat (image.length + pad) ≠ payloadBase ∨ payload.length ≠ payloadBytes c then
    .error .panic
  else
    let image ← writePageStoreSidecar image keys.length
    return image ++ List.replicate pad 0 ++ payload

end Store

inductive PageStoreError where
  | tooShort (length : Nat)
  | badMagic
  | noVersionRecord
  | unsupportedVersion (version : UInt16)
  | storePageSize (size : UInt32)
  | leafTypeA (flags : UInt8)
  | index (e : NsError)
  | keyCount (declared held : Nat)
  | entryRange (key start stop : UInt64) (length : Nat)
  | trailingBytes (key : UInt64) (left : Nat)
  | recordPageSize (key : UInt64) (n size : Nat)
  | recordTooShort (key : UInt64) (n size left : Nat)
  | recordHash (n : Nat)
  | recordKey (key : UInt64) (n : Nat) (filed : UInt64)
  | emptyPayload (key : UInt64)
  deriving DecidableEq, Repr

section Decode

variable (hashPage : Bytes → Uint128) (keyOf : Uint128 → UInt64)

/-- The records of a chain from the `n`-th on. Returns how many there are in all. -/
def decodeChain (key : UInt64) (n : Nat) (chain : Bytes) (c : PerTraceCache) :
    Except (Fault PageStoreError) (Nat × PerTraceCache) :=
  if chain.length = 0 then return (n, c)
  else if chain.length < pageRecordHeaderSize then
    .error (.error (.trailingBytes key chain.length))
  else do
    let h := uint128FromBytes (← sub chain 0 16)
    let size := (← uint32 chain 16).toNat
    if size ≠ pageSize then .error (.error (.recordPageSize key n size))
    else if chain.length - pageRecordHeaderSize < size then
      .error (.error (.recordTooShort key n size (chain.length - pageRecordHeaderSize)))
    else
      let page ← sub chain pageRecordHeaderSize (pageRecordHeaderSize + size)
      if hashPage page ≠ h then .error (.error (.recordHash n))
      else if keyOf h ≠ key then .error (.error (.recordKey key n (keyOf h)))
      else decodeChain key (n + 1) (chain.drop (pageRecordHeaderSize + size)) (c.insert h page)
termination_by chain.length
decreasing_by
  rw [List.length_drop, pageRecordHeaderSize]
  omega

/-- The pages filed under one key. -/
def decodeEntry (raw : Bytes) (c : PerTraceCache) (e : NsEntry) :
    Except (Fault PageStoreError) PerTraceCache := do
  let start ← uint64 e.2 0
  let length ← uint64 e.2 8
  let stop := start + length
  if stop < start ∨ raw.length < stop.toNat then
    .error (.error (.entryRange e.1 start stop raw.length))
  else
    let chain ← sub raw start.toNat stop.toNat
    let (n, c) ← decodeChain hashPage keyOf e.1 0 chain c
    if n = 0 then .error (.error (.emptyPayload e.1)) else return c

/-- The namespace, its errors among those of the page store. -/
def collectStore (raw : Bytes) : Except (Fault PageStoreError) (List NsEntry) :=
  match nsCollect raw pageStoreDescSize with
  | .ok es => .ok es
  | .error .panic => .error .panic
  | .error (.error e) => .error (.error (.index e))

/-- The inverse of `encodePageStoreKeyed`. Every page is hashed again. -/
def decodePageStoreKeyed (raw : Bytes) : Except (Fault PageStoreError) PerTraceCache := do
  if raw.length = 0 then return ∅
  else if raw.length < nsPageSize then .error (.error (.tooShort raw.length))
  else if raw.take 4 ≠ nsMagic then .error (.error .badMagic)
  else
    let s ← sub raw pageStoreSidecarOffset (pageStoreSidecarOffset + pageStoreSidecarSize)
    if s.take 4 ≠ pageStoreSidecarMagic then .error (.error .noVersionRecord)
    else
      let version ← uint16 s 4
      let size ← uint32 s 8
      let wantKeys := (← uint32 s 12).toNat
      let flags ← byteAt raw nsOffFlags
      if version ≠ snapshotFormatVersion then .error (.error (.unsupportedVersion version))
      else if size ≠ UInt32.ofNat pageSize then .error (.error (.storePageSize size))
      else if flags &&& nsFlagLeafTypeB = 0 then .error (.error (.leafTypeA flags))
      else
        let entries ← collectStore raw
        if entries.length ≠ wantKeys then .error (.error (.keyCount wantKeys entries.length))
        else entries.foldlM (decodeEntry hashPage keyOf raw) ∅

end Decode

def decodePageStore (hashPage : Bytes → Uint128) (raw : Bytes) :
    Except (Fault PageStoreError) PerTraceCache :=
  decodePageStoreKeyed hashPage truncatedKey raw

end Wasmsnapshot
