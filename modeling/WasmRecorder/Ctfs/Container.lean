import WasmRecorder.Ctfs.Base40
import WasmRecorder.Lib.Checked

/-!
# The container reader

A container is a file of equal blocks. Block `0` holds a header and an array of entries, one for
each internal file; an entry names the root of a tree of mapping blocks that leads to the file's
data blocks.

* `Container.resolveDataBlock` — from an index within an internal file to a container block.
* `Container.dataBlocks`, `Container.readFile` — reading an internal file.

Block numbers, sizes and offsets are the `u64` values the reader computes with, and wrap as they
do there. A panic is an outcome of its own.
-/

namespace Ctfs

open Checked LittleEndian Slice

/-- The bytes of a file, whose length is a signed 64-bit number. -/
structure Image where
  bytes : Bytes
  length_lt : bytes.length < 2 ^ 63
  deriving DecidableEq

def headerSize : Nat := 16

def fileEntrySize : Nat := 24

def magic : Bytes := [0xc0, 0xde, 0x72, 0xac, 0xe2]

/-- Why a place for the entry array was turned down. -/
inductive Reason where
  | overflowsBlock0 (base : Nat) (count : Int)
  | blankName (slot : Nat)
  | notBase40 (slot : Nat) (name : UInt64)
  | outsideContainer (slot : Nat) (name : Bytes) (block nextFreeBlock : UInt64)
  | noEntries
  deriving DecidableEq, Repr

inductive Error where
  | tooSmall (size : Nat)
  | badMagic
  | encrypted (encryption : UInt8)
  | unusableBlockSize (blockSize : UInt64)
  | shortBlock0
  | noEntryArray (reasons : List Reason)
  | badName (e : NameError)
  | noSuchFile (name : Bytes)
  | beyondMapLevels (name : Bytes) (blockIdx : UInt64)
  | noChainPointer (name : Bytes) (level : Nat) (blockIdx : UInt64)
  | hole (name : Bytes) (level : Nat) (slot : UInt64)
  | nullDataBlock (name : Bytes) (blockIdx : UInt64)
  | truncated (name : Bytes) (blockIdx dataBlock nextFreeBlock : UInt64)
  | outsideBlocks (block nextFreeBlock : UInt64)
  | shortBlock (block : UInt64)
  | shortRead (name : Bytes) (slot i : Nat) (block : UInt64)
  deriving DecidableEq, Repr

/-- A result of the reader. -/
abbrev Outcome := Except (Fault Error)

def fail {α : Type} (e : Error) : Outcome α := .error (.error e)

/-- The `n` bytes of the file at `off`. A file is read at a signed offset; one past the end, as
every negative one is here, is an error. -/
def Image.readAt (img : Image) (n : Nat) (off : UInt64) (e : Error) : Outcome Bytes :=
  if off.toNat + n ≤ img.bytes.length then .ok (slice img.bytes off.toNat (off.toNat + n))
  else fail e

/-- One slot of the entry array. -/
structure FileEntry where
  size : UInt64
  mapBlock : UInt64
  name : UInt64
  slot : Nat
  deriving DecidableEq, Repr

structure Container where
  blockSize : UInt64
  maxShards : UInt8
  version : UInt8
  encryption : UInt8
  /-- The offset of the first entry in block `0`. -/
  entryBase : Nat := 0
  entryCount : Int := 0
  block0 : Bytes := []
  nextFreeBlock : UInt64 := 0
  fileSize : UInt64
  /-- The length of the file modulo the block size. -/
  partialTailBytes : UInt64 := 0
  deriving DecidableEq, Repr

/-! ### The entry array -/

def Container.entryAt (c : Container) (i : Nat) : Outcome FileEntry := do
  let off := c.entryBase + i * fileEntrySize
  let size ← uint64 c.block0 off
  let mapBlock ← uint64 c.block0 (off + 8)
  let name ← uint64 c.block0 (off + 16)
  return { size, mapBlock, name, slot := i }

/-- The check of one entry: whether it is in use, or what is wrong with it. -/
def Container.validateEntry (c : Container) (e : FileEntry) : Except Reason Bool :=
  if e.size = 0 ∧ e.mapBlock = 0 ∧ e.name = 0 then .ok false
  else
    let name := decodeName e.name
    if name = [] then .error (.blankName e.slot)
    else if (encodeName name).toOption ≠ some e.name then .error (.notBase40 e.slot e.name)
    else if c.nextFreeBlock ≤ e.mapBlock then
      .error (.outsideContainer e.slot name e.mapBlock c.nextFreeBlock)
    else .ok true

/-- The entries from slot `i` on, `n` of them, with the number of entries in use before. -/
def Container.validateFrom (c : Container) : Nat → Nat → Nat → Outcome (Except Reason Unit)
  | 0, _, nonEmpty => return if nonEmpty = 0 then .error .noEntries else .ok ()
  | n + 1, i, nonEmpty => do
    match c.validateEntry (← c.entryAt i) with
    | .error reason => return .error reason
    | .ok used => c.validateFrom n (i + 1) (if used then nonEmpty + 1 else nonEmpty)

def Container.validateEntries (c : Container) : Outcome (Except Reason Unit) :=
  c.validateFrom c.entryCount.toNat 0 0

/-- The offsets at which the entry array may start: right behind the header, or behind the
free-list roots. -/
def Container.candidates (c : Container) : List Nat :=
  let r := 8 * c.maxShards.toNat * 6
  if r = 0 then [headerSize]
  else if c.maxShards ≤ 1 then [headerSize, headerSize + r]
  else [headerSize + r, headerSize]

def Container.tryCandidates (c : Container) (maxRootEntries : Nat) :
    List Nat → List Reason → Outcome Container
  | [], reasons => fail (.noEntryArray reasons)
  | base :: rest, reasons => do
    let count : Int := if maxRootEntries = 0 then
        ((c.blockSize.toNat : Int) - base).tdiv fileEntrySize
      else maxRootEntries
    if base + count * fileEntrySize > c.blockSize.toNat then
      c.tryCandidates maxRootEntries rest (reasons ++ [.overflowsBlock0 base count])
    else
      let c' := { c with entryBase := base, entryCount := count }
      match ← c'.validateEntries with
      | .error reason => c.tryCandidates maxRootEntries rest (reasons ++ [reason])
      | .ok () => return c'

def Container.locateEntryArray (c : Container) (maxRootEntries : Nat) : Outcome Container :=
  c.tryCandidates maxRootEntries c.candidates []

/-- Read the structure of a container. -/
def «open» (img : Image) : Outcome Container := do
  if img.bytes.length < headerSize then fail (.tooSmall img.bytes.length)
  else
    let hdr := img.bytes.take headerSize
    if hdr.take magic.length ≠ magic then fail .badMagic
    else
      let blockSize := (u32At hdr 8).toUInt64
      let fileSize := UInt64.ofNat img.bytes.length
      let c : Container := {
        version := hdr.getD 5 0, encryption := hdr.getD 6 0, maxShards := hdr.getD 7 0
        blockSize, fileSize }
      if c.encryption ≠ 0 then fail (.encrypted c.encryption)
      else if blockSize = 0 ∨ blockSize % 8 ≠ 0 ∨ blockSize.toNat < headerSize then
        fail (.unusableBlockSize blockSize)
      else
        let block0 ← img.readAt blockSize.toNat 0 .shortBlock0
        { c with
          partialTailBytes := fileSize % blockSize, nextFreeBlock := fileSize / blockSize
          block0 }.locateEntryArray (u32At hdr 12).toNat

/-! ### Names -/

def Container.entriesFrom (c : Container) : Nat → Nat → Outcome (List FileEntry)
  | 0, _ => return []
  | n + 1, i => return (← c.entryAt i) :: (← c.entriesFrom n (i + 1))

/-- The internal files present, sorted. -/
def Container.names (c : Container) : Outcome (List Bytes) := do
  let entries ← c.entriesFrom c.entryCount.toNat 0
  return ((entries.filter fun e => e.name ≠ 0).map fun e => decodeName e.name).mergeSort
    fun a b => decide (a ≤ b)

def Container.findFrom (c : Container) (name : Bytes) (want : UInt64) :
    Nat → Nat → Outcome FileEntry
  | 0, _ => fail (.noSuchFile name)
  | n + 1, i => do
    let e ← c.entryAt i
    if e.name = want then return e else c.findFrom name want n (i + 1)

def Container.find (c : Container) (name : Bytes) : Outcome FileEntry :=
  match encodeName name with
  | .error e => fail (.badName e)
  | .ok want => c.findFrom name want c.entryCount.toNat 0

/-! ### Mapping blocks -/

/-- The child pointers of a mapping block; the word behind them is the chain pointer. -/
def Container.usable (c : Container) : UInt64 := c.blockSize / 8 - 1

def maxMapLevels : Nat := 5

/-- The data blocks under a mapping block of a level. -/
def levelCapacity (usable : UInt64) : Nat → UInt64
  | 0 => 1
  | level + 1 => levelCapacity usable level * usable

def Container.readBlock (c : Container) (img : Image) (blk : UInt64) : Outcome Bytes :=
  if blk = 0 ∨ c.nextFreeBlock ≤ blk then fail (.outsideBlocks blk c.nextFreeBlock)
  else img.readAt c.blockSize.toNat (blk * c.blockSize) (.shortBlock blk)

section

/-! The walk is written for any way of getting at a block, as it is handed one. -/

variable {m : Type → Type} [Monad m] [MonadLiftT Outcome m]

/-- Climb the chain until a level covers what is left of the index. The level is given by the
levels that are left above it. -/
def Container.ascend (c : Container) (block : UInt64 → m Bytes) (e : FileEntry)
    (blockIdx : UInt64) : Nat → UInt64 → UInt64 → m (UInt64 × Nat × UInt64)
  | above, idx, cur => do
    let level := maxMapLevels - above
    let capacity := levelCapacity c.usable level
    if idx < capacity then return (idx, level, cur)
    else match above with
      | 0 => liftM (fail (.beyondMapLevels (decodeName e.name) blockIdx) : Outcome _)
      | above + 1 =>
        let blk ← block cur
        let chain ← liftM (uint64 blk (c.usable * 8).toNat : Outcome UInt64)
        if chain = 0 then
          liftM (fail (.noChainPointer (decodeName e.name) (level + 1) blockIdx) : Outcome _)
        else c.ascend block e blockIdx above (idx - capacity) chain

/-- Go down to the pointer to the data block. The level is one more than the argument. -/
def Container.descend (c : Container) (block : UInt64 → m Bytes) (e : FileEntry)
    (blockIdx : UInt64) : Nat → UInt64 → UInt64 → m UInt64
  | 0, idx, cur => do
    let blk ← block cur
    let dataBlk ← liftM (uint64 blk (idx * 8).toNat : Outcome UInt64)
    if dataBlk = 0 then
      liftM (fail (.nullDataBlock (decodeName e.name) blockIdx) : Outcome _)
    else if c.nextFreeBlock ≤ dataBlk then
      liftM (fail (.truncated (decodeName e.name) blockIdx dataBlk c.nextFreeBlock) : Outcome _)
    else return dataBlk
  | below + 1, idx, cur => do
    let subCap := levelCapacity c.usable (below + 1)
    let entryIdx := idx / subCap
    let blk ← block cur
    let child ← liftM (uint64 blk (entryIdx * 8).toNat : Outcome UInt64)
    if child = 0 then
      liftM (fail (.hole (decodeName e.name) (below + 2) entryIdx) : Outcome _)
    else c.descend block e blockIdx below (idx % subCap) child

/-- The container block that holds a block of an internal file. -/
def Container.resolveDataBlock (c : Container) (block : UInt64 → m Bytes) (e : FileEntry)
    (blockIdx : UInt64) : m UInt64 := do
  let (idx, level, cur) ← c.ascend block e blockIdx (maxMapLevels - 1) blockIdx e.mapBlock
  c.descend block e blockIdx (level - 1) idx cur

end

/-! ### Reading a file -/

/-- The mapping blocks read so far. -/
abbrev BlockCache := List (UInt64 × Bytes)

/-- A mapping block, from the cache if it is there. -/
def Container.cachedBlock (c : Container) (img : Image) (blk : UInt64) :
    StateT BlockCache Outcome Bytes := do
  match (← get).lookup blk with
  | some b => return b
  | none =>
    let b ← liftM (c.readBlock img blk)
    modify fun cache => (blk, b) :: cache
    return b

/-- The blocks of an internal file. Slices of more than `maxAlloc` bytes cannot be made. -/
def Container.dataBlocks (c : Container) (maxAlloc : Nat) (img : Image) (e : FileEntry) :
    Outcome (List UInt64) := do
  let n := (e.size + c.blockSize - 1) / c.blockSize
  let _ ← make maxAlloc 8 n.toNat (0 : UInt64)
  let resolve := (List.range n.toNat).mapM fun i =>
    c.resolveDataBlock (c.cachedBlock img) e (UInt64.ofNat i)
  return (← resolve.run []).1

/-- Read the blocks from the `i`-th on into place. -/
def Container.fill (c : Container) (img : Image) (e : FileEntry) :
    Nat → List UInt64 → Bytes → Outcome Bytes
  | _, [], out => return out
  | i, blk :: blocks, out => do
    let start := UInt64.ofNat i * c.blockSize
    let «end» := if e.size < start + c.blockSize then e.size else start + c.blockSize
    let dst ← sub out start.toNat «end».toNat
    let src ← img.readAt dst.length (blk * c.blockSize)
      (.shortRead (decodeName e.name) e.slot i blk)
    c.fill img e (i + 1) blocks (← put out start.toNat src)

def Container.readEntry (c : Container) (maxAlloc : Nat) (img : Image) (e : FileEntry) :
    Outcome Bytes := do
  let out ← make maxAlloc 1 e.size.toNat (0 : UInt8)
  if e.size = 0 then return out
  else c.fill img e 0 (← c.dataBlocks maxAlloc img e) out

/-- The bytes of an internal file. -/
def Container.readFile (c : Container) (maxAlloc : Nat) (img : Image) (name : Bytes) :
    Outcome Bytes := do
  c.readEntry maxAlloc img (← c.find name)

end Ctfs
