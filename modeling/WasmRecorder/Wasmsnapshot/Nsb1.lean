import WasmRecorder.Lib.Checked
import WasmRecorder.Lib.Fallible
import WasmRecorder.Lib.Runs

/-!
# The namespace B-tree

A namespace is a sequence of pages of 4096 bytes. Page `0` holds a header; every other page is a
node of a B-tree that maps `u64` keys to descriptors of a fixed width. Page numbers start at
`1`, and `0` stands for no page.

* `nsCollect` — walks a namespace, checks it, and returns its entries in order.
* `nimLookup` — the producer's lookup, which descends to one key and checks nothing.

Positions in an image are unbounded numbers: an image is a slice, so all of them are below its
length.
-/

namespace Wasmsnapshot

open Checked Fallible LittleEndian Runs Slice

abbrev Bytes := List UInt8

def nsPageSize : Nat := 4096

def nsNodeHeaderBytes : Nat := 8

def nsHeaderTotal : Nat := 61

def nsKindInternal : UInt8 := 0

def nsKindLeaf : UInt8 := 1

def nsDescSizeTypeA : Nat := 8

def nsDescSizeTypeB : Nat := 16

def nsOffRoot0 : Nat := 4

def nsOffRoot1 : Nat := 12

def nsOffCommit0 : Nat := 20

def nsOffCommit1 : Nat := 28

def nsOffFlags : Nat := 36

def nsOffFreeHead : Nat := 37

def nsOffNextFree : Nat := 45

def nsOffPageCount : Nat := 53

def nsFlagLeafTypeB : UInt8 := 1

def nsFlagSkipSubBlocks : UInt8 := 2

def nsMaxDepth : Nat := 16

/-- The characters `NSB1`. -/
def nsMagic : Bytes := [0x4e, 0x53, 0x42, 0x31]

/-- The keys that fit in a node. -/
def nsOrder (descSize : Nat) : Nat := (nsPageSize - nsNodeHeaderBytes) / (8 + descSize)

/-- A key and its descriptor. -/
abbrev NsEntry := UInt64 × Bytes

inductive NsError where
  | descriptorWidth (i width descSize : Nat)
  | notAscending (i : Nat) (key previous : UInt64)
  | shortHeader (length : Nat)
  | badMagic
  | notPageAligned (length : Nat)
  | pageCount (declared : UInt64) (held : Nat)
  | headerFollowed
  | pageOutOfRange (page pageCount : UInt64)
  | reachedTwice (page : UInt64)
  | unknownKind (page : UInt64) (kind : UInt8)
  | tooManyKeys (page : UInt64) (count order : Nat)
  | payloadTooLarge (page : UInt64) (count : Nat)
  | tooDeep
  | keysOutOfOrder (page previous key : UInt64)
  | leavesOutOfOrder (key previous : UInt64)
  deriving DecidableEq, Repr

/-! ### The writer -/

structure NsBuilder where
  image : Bytes
  /-- The next page. -/
  next : UInt64
  descSize : Nat
  deriving DecidableEq, Repr

def NsBuilder.alloc (b : NsBuilder) : UInt64 × NsBuilder :=
  (b.next, { b with next := b.next + 1, image := b.image ++ List.replicate nsPageSize 0 })

def pageBase (page : UInt64) : Nat := page.toNat * nsPageSize

def NsBuilder.writeNodeHeader (b : NsBuilder) (page : UInt64) (leaf : Bool) (count : Nat) :
    Except (Fault NsError) NsBuilder := do
  let base := pageBase page
  let image ← put b.image base [if leaf then nsKindLeaf else nsKindInternal]
  let image ← put image (base + 1) [0]
  let image ← put image (base + 2) (le16 (UInt16.ofNat count))
  let image ← put image (base + 4) [0, 0, 0, 0]
  return { b with image }

/-- The keys and descriptors of a leaf, from the `i`-th on. -/
def writeEntries (base descBase descSize : Nat) :
    Nat → List NsEntry → Bytes → Except (Fault NsError) Bytes
  | _, [], image => return image
  | i, (key, desc) :: entries, image => do
    let image ← put image (base + nsNodeHeaderBytes + i * 8) (le64 key)
    let image ← put image (descBase + i * descSize) desc
    writeEntries base descBase descSize (i + 1) entries image

def NsBuilder.writeLeaf (b : NsBuilder) (page : UInt64) (entries : List NsEntry) :
    Except (Fault NsError) NsBuilder := do
  let b ← b.writeNodeHeader page true entries.length
  let base := pageBase page
  let descBase := base + nsNodeHeaderBytes + entries.length * 8
  let image ← writeEntries base descBase b.descSize 0 entries b.image
  return { b with image }

/-- Words one behind the other. -/
def writeWords (off : Nat) : List UInt64 → Bytes → Except (Fault NsError) Bytes
  | [], image => return image
  | w :: words, image => do writeWords (off + 8) words (← put image off (le64 w))

def NsBuilder.writeInternal (b : NsBuilder) (page : UInt64) (keys children : List UInt64) :
    Except (Fault NsError) NsBuilder := do
  let b ← b.writeNodeHeader page false keys.length
  let base := pageBase page
  let childBase := base + nsNodeHeaderBytes + keys.length * 8
  let image ← writeWords (base + nsNodeHeaderBytes) keys b.image
  let image ← writeWords childBase children image
  return { b with image }

/-- A node of the level being packed, with the smallest key below it. -/
structure LevelNode where
  page : UInt64
  minKey : UInt64
  deriving DecidableEq, Repr

/-- The check of a batch: every descriptor has the right width and the keys ascend. -/
def checkBatch (descSize : Nat) : Nat → Option UInt64 → List NsEntry → Except NsError Unit
  | _, _, [] => .ok ()
  | i, previous, (key, desc) :: entries =>
    if desc.length ≠ descSize then .error (.descriptorWidth i desc.length descSize)
    else match previous with
      | none => checkBatch descSize (i + 1) (some key) entries
      | some k =>
        if key ≤ k then .error (.notAscending i key k)
        else checkBatch descSize (i + 1) (some key) entries

/-- One leaf page for each run of entries. -/
def packLeaves : List (List NsEntry) → NsBuilder × List LevelNode →
    Except (Fault NsError) (NsBuilder × List LevelNode)
  | [], s => return s
  | [] :: rest, s => packLeaves rest s
  | (entry :: run) :: rest, (b, level) => do
    let page := b.alloc.1
    let b ← b.alloc.2.writeLeaf page (entry :: run)
    packLeaves rest (b, level ++ [⟨page, entry.1⟩])

/-- One internal page for each group of nodes. Each child but the first contributes the smallest
key below it as the separator in front of it. -/
def packGroups : List (List LevelNode) → NsBuilder × List LevelNode →
    Except (Fault NsError) (NsBuilder × List LevelNode)
  | [], s => return s
  | [] :: rest, s => packGroups rest s
  | (node :: group) :: rest, (b, parent) => do
    let page := b.alloc.1
    let b ← b.alloc.2.writeInternal page (group.map LevelNode.minKey)
      ((node :: group).map LevelNode.page)
    packGroups rest (b, parent ++ [⟨page, node.minKey⟩])

theorem length_packGroups {groups : List (List LevelNode)} {b b' : NsBuilder}
    {parent parent' : List LevelNode} (h : packGroups groups (b, parent) = .ok (b', parent')) :
    parent'.length ≤ parent.length + groups.length := by
  induction groups generalizing b parent with
  | nil => cases h; exact Nat.le_refl _
  | cons group rest ih =>
    cases group with
    | nil =>
      have := ih h
      rw [List.length_cons]
      omega
    | cons node group =>
      obtain ⟨b₁, -, h⟩ := bind_eq_ok.mp h
      have := ih h
      rw [List.length_append, List.length_singleton] at this
      rw [List.length_cons]
      omega

/-- Pack level upon level until one node is left. The order of a node is not zero. -/
def packLevels (order : Nat) (b : NsBuilder) (level : List LevelNode) :
    Except (Fault NsError) (NsBuilder × List LevelNode) :=
  if order = 0 ∨ level.length ≤ 1 then return (b, level)
  else
    match _h : packGroups (runs (order + 1) level) (b, []) with
    | .error e => .error e
    | .ok (b', parent) => packLevels order b' parent
termination_by level.length
decreasing_by
  rename_i hlevel
  rw [not_or, not_le] at hlevel
  have := length_packGroups _h
  rw [length_runs (Nat.succ_pos order), List.length_nil, Nat.zero_add] at this
  refine lt_of_le_of_lt this (Nat.div_lt_of_lt_mul ?_)
  have hmul := Nat.mul_le_mul_left order hlevel.2
  rw [Nat.succ_mul]
  omega

def liftError {α : Type} : Except NsError α → Except (Fault NsError) α :=
  Except.mapError Fault.error

/-- Pack a sorted batch into a namespace. An empty batch gives a namespace without a root. -/
def nsBulkLoad (entries : List NsEntry) (descSize : Nat) (flags : UInt8) :
    Except (Fault NsError) Bytes := do
  let order := nsOrder descSize
  liftError (checkBatch descSize 0 none entries)
  let b : NsBuilder := { image := List.replicate nsPageSize 0, next := 1, descSize }
  let (b, level) ← packLeaves (runs order entries) (b, [])
  let (b, level) ← packLevels order b level
  let (root, commit) : UInt64 × UInt64 := match level with
    | [node] => (node.page, 1)
    | _ => (0, 0)
  let image ← put b.image 0 nsMagic
  let image ← put image nsOffRoot0 (le64 root)
  let image ← put image nsOffRoot1 (le64 0)
  let image ← put image nsOffCommit0 (le64 commit)
  let image ← put image nsOffCommit1 (le64 0)
  let image ← put image nsOffFlags [flags]
  let image ← put image nsOffFreeHead (le64 0)
  let image ← put image nsOffNextFree (le64 b.next)
  put image nsOffPageCount (le64 b.next)

/-! ### The reader -/

structure NsHeader where
  root : UInt64
  commitID : UInt64
  flags : UInt8
  pageCount : UInt64
  deriving DecidableEq, Repr

/-- The byte at an offset. -/
def byteAt {ε : Type} (b : Bytes) (off : Nat) : Except (Fault ε) UInt8 :=
  match b[off]? with
  | some x => .ok x
  | none => .error .panic

theorem byteAt_eq {ε : Type} {b : Bytes} {off : Nat} {x : UInt8} (h : b[off]? = some x) :
    (byteAt b off : Except (Fault ε) UInt8) = .ok x := by
  rw [byteAt.eq_def, h]

/-- The committed root is the one with the higher commit number; a number of zero is an empty
slot. -/
def nsReadHeader (image : Bytes) : Except (Fault NsError) NsHeader := do
  if image.length < nsHeaderTotal then .error (.error (.shortHeader image.length))
  else if image.take 4 ≠ nsMagic then .error (.error .badMagic)
  else if image.length % nsPageSize ≠ 0 then .error (.error (.notPageAligned image.length))
  else
    let commit0 ← uint64 image nsOffCommit0
    let commit1 ← uint64 image nsOffCommit1
    let root0 ← uint64 image nsOffRoot0
    let root1 ← uint64 image nsOffRoot1
    let (root, commitID) : UInt64 × UInt64 :=
      if commit0 = 0 ∧ commit1 = 0 then (0, 0)
      else if commit0 < commit1 then (root1, commit1)
      else (root0, commit0)
    let flags ← byteAt image nsOffFlags
    let pageCount ← uint64 image nsOffPageCount
    if image.length / nsPageSize < pageCount.toNat then
      .error (.error (.pageCount pageCount (image.length / nsPageSize)))
    else return { root, commitID, flags, pageCount }

/-- A page with its decoded node header. -/
structure NsNode where
  page : UInt64
  leaf : Bool
  count : Nat
  base : Nat
  deriving DecidableEq, Repr

/-- Read and check the header of a node, and note that its page was reached. -/
def nsReadNode (image : Bytes) (pageCount : UInt64) (descSize : Nat) (seen : List UInt64)
    (page : UInt64) : Except (Fault NsError) (NsNode × List UInt64) := do
  if page = 0 then .error (.error .headerFollowed)
  else if pageCount ≤ page then .error (.error (.pageOutOfRange page pageCount))
  else if page ∈ seen then .error (.error (.reachedTwice page))
  else
    let base := pageBase page
    let kind ← byteAt image base
    if kind ≠ nsKindLeaf ∧ kind ≠ nsKindInternal then .error (.error (.unknownKind page kind))
    else
      let leaf := kind = nsKindLeaf
      let count := (← uint16 image (base + 2)).toNat
      if nsOrder descSize < count then
        .error (.error (.tooManyKeys page count (nsOrder descSize)))
      else
        let width := if leaf then descSize else 8
        let extra := if leaf then 0 else 8
        if nsPageSize < nsNodeHeaderBytes + count * 8 + count * width + extra then
          .error (.error (.payloadTooLarge page count))
        else return (⟨page, leaf, count, base⟩, page :: seen)

def NsNode.key (image : Bytes) (n : NsNode) (i : Nat) : Except (Fault NsError) UInt64 :=
  uint64 image (n.base + nsNodeHeaderBytes + i * 8)

/-- The keys of a node from the `i`-th on, `left` of them, ascend and follow the one in front. -/
def checkKeys (image : Bytes) (n : NsNode) : Nat → Nat → Except (Fault NsError) Unit
  | 0, _ => return ()
  | left + 1, i => do
    let previous ← n.key image (i - 1)
    let key ← n.key image i
    if key ≤ previous then .error (.error (.keysOutOfOrder n.page previous key))
    else checkKeys image n left (i + 1)

/-- The entries of a leaf from the `i`-th on, `left` of them, behind those collected before. -/
def collectLeaf (image : Bytes) (descSize : Nat) (n : NsNode) :
    Nat → Nat → List NsEntry → Except (Fault NsError) (List NsEntry)
  | 0, _, out => return out
  | left + 1, i, out => do
    let key ← n.key image i
    let descBase := n.base + nsNodeHeaderBytes + n.count * 8
    match out.getLast? with
    | some last =>
      if key ≤ last.1 then .error (.error (.leavesOutOfOrder key last.1))
      else
        let desc ← sub image (descBase + i * descSize) (descBase + (i + 1) * descSize)
        collectLeaf image descSize n left (i + 1) (out ++ [(key, desc)])
    | none =>
      let desc ← sub image (descBase + i * descSize) (descBase + (i + 1) * descSize)
      collectLeaf image descSize n left (i + 1) (out ++ [(key, desc)])

/-- The pages reached so far and the entries collected so far. -/
abbrev WalkState := List UInt64 × List NsEntry

/-- Walk the tree below a page, `levels` deep at most. -/
def nsWalk (image : Bytes) (pageCount : UInt64) (descSize : Nat) :
    Nat → UInt64 → WalkState → Except (Fault NsError) WalkState
  | 0, _, _ => .error (.error .tooDeep)
  | levels + 1, page, (seen, out) => do
    let (n, seen) ← nsReadNode image pageCount descSize seen page
    checkKeys image n (n.count - 1) 1
    if n.leaf then return (seen, ← collectLeaf image descSize n n.count 0 out)
    else
      let childBase := n.base + nsNodeHeaderBytes + n.count * 8
      (List.range (n.count + 1)).foldlM (fun s i => do
        let child ← uint64 image (childBase + i * 8)
        nsWalk image pageCount descSize levels child s) (seen, out)

/-- The entries of a namespace, in order. -/
def nsCollect (image : Bytes) (descSize : Nat) : Except (Fault NsError) (List NsEntry) := do
  let h ← nsReadHeader image
  if h.root = 0 then return []
  else return (← nsWalk image h.pageCount descSize nsMaxDepth h.root ([], [])).2

/-! ### The producer's reader -/

inductive NimError where
  | tooShort
  | badMagic
  | notPageAligned
  | keyNotFound
  deriving DecidableEq, Repr

structure NimCowBTree where
  descriptorSize : Nat
  pages : Bytes
  root0 : UInt64
  root1 : UInt64
  commit0 : UInt64
  commit1 : UInt64
  deriving DecidableEq, Repr

def nimLoadCowBTree (image : Bytes) (descriptorSize : Nat) :
    Except (Fault NimError) NimCowBTree := do
  if image.length < nsHeaderTotal then .error (.error .tooShort)
  else if image.take 4 ≠ nsMagic then .error (.error .badMagic)
  else if image.length % nsPageSize ≠ 0 then .error (.error .notPageAligned)
  else return {
    descriptorSize, pages := image
    root0 := ← uint64 image nsOffRoot0, root1 := ← uint64 image nsOffRoot1
    commit0 := ← uint64 image nsOffCommit0, commit1 := ← uint64 image nsOffCommit1 }

def NimCowBTree.committedRoot (t : NimCowBTree) : UInt64 :=
  if t.commit0 = 0 ∧ t.commit1 = 0 then 0
  else if t.commit0 < t.commit1 then t.root1
  else t.root0

def NimCowBTree.nodeKey (t : NimCowBTree) (page : UInt64) (i : Nat) :
    Except (Fault NimError) UInt64 :=
  uint64 t.pages (pageBase page + nsNodeHeaderBytes + i * 8)

/-- The first of the keys `lo, …, hi - 1` that is not below the key, by bisection. -/
def NimCowBTree.lowerBound (t : NimCowBTree) (page : UInt64) (key : UInt64) (lo hi : Nat) :
    Except (Fault NimError) Nat :=
  if lo < hi then do
    let mid := (lo + hi) / 2
    let k ← t.nodeKey page mid
    if k < key then t.lowerBound page key (mid + 1) hi else t.lowerBound page key lo mid
  else return lo
termination_by hi - lo

/-- Whether the key at a position of a node is the one looked for. -/
def NimCowBTree.keyIsAt (t : NimCowBTree) (page key : UInt64) (count idx : Nat) :
    Except (Fault NimError) Bool :=
  if idx < count then do return decide ((← t.nodeKey page idx) = key) else return false

/-- One step of the descent: the descriptor, or the page to go on with. -/
def NimCowBTree.step (t : NimCowBTree) (page key : UInt64) :
    Except (Fault NimError) (Bytes ⊕ UInt64) := do
  let count := (← uint16 t.pages (pageBase page + 2)).toNat
  let idx ← t.lowerBound page key 0 count
  let equal ← t.keyIsAt page key count idx
  let payload := pageBase page + nsNodeHeaderBytes + count * 8
  if (← byteAt t.pages (pageBase page)) = nsKindLeaf then
    if equal then
      let off := payload + idx * t.descriptorSize
      return .inl (← sub t.pages off (off + t.descriptorSize))
    else .error (.error .keyNotFound)
  else
    let childIdx := if equal then idx + 1 else idx
    return .inr (← uint64 t.pages (payload + childIdx * 8))

/-- The descent from a page; `none` if it does not end within the given number of pages. -/
def NimCowBTree.descend (t : NimCowBTree) (key : UInt64) :
    Nat → UInt64 → Option (Except (Fault NimError) Bytes)
  | 0, _ => none
  | rounds + 1, page =>
    match t.step page key with
    | .error e => some (.error e)
    | .ok (.inl desc) => some (.ok desc)
    | .ok (.inr child) => t.descend key rounds child

/-- The producer's lookup of a key in a namespace. -/
def nimLookup (rounds : Nat) (image : Bytes) (descriptorSize : Nat) (key : UInt64) :
    Option (Except (Fault NimError) Bytes) :=
  match nimLoadCowBTree image descriptorSize with
  | .error e => some (.error e)
  | .ok t =>
    if t.committedRoot = 0 then some (.error (.error .keyNotFound))
    else t.descend key rounds t.committedRoot

end Wasmsnapshot
