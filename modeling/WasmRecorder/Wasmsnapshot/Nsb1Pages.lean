import WasmRecorder.Wasmsnapshot.Nsb1Walk

/-!
# Pages of a namespace

What the writer puts on a page, as a value, and what the readers make of it.

* `fetchPages` — the nodes of a list of pages; `nsFetch_eq_fetchPages` finds them in an image.
* `headerBytes` — the header of a namespace; `nsReadHeader_append` reads it.
-/

namespace Wasmsnapshot

open Checked LittleEndian SearchTree Slice

/-! ### The bytes of a node -/

def nodeHeader (kind : UInt8) (count : Nat) : Bytes :=
  [kind, 0] ++ le16 (UInt16.ofNat count) ++ [0, 0, 0, 0]

theorem length_nodeHeader (kind : UInt8) (count : Nat) :
    (nodeHeader kind count).length = nsNodeHeaderBytes := by
  rw [nodeHeader, List.length_append, List.length_append, length_le16]
  rfl

/-- A page that begins with a node. -/
def nodePage (kind : UInt8) (count : Nat) (payload : Bytes) : Bytes :=
  nodeHeader kind count ++ payload ++
    List.replicate (nsPageSize - nsNodeHeaderBytes - payload.length) 0

def leafPage (es : List NsEntry) : Bytes :=
  nodePage nsKindLeaf es.length (words (es.map Prod.fst) ++ (es.map Prod.snd).flatten)

def internalPage (keys children : List UInt64) : Bytes :=
  nodePage nsKindInternal keys.length (words keys ++ words children)

theorem length_nodePage {kind : UInt8} {count : Nat} {payload : Bytes}
    (h : nsNodeHeaderBytes + payload.length ≤ nsPageSize) :
    (nodePage kind count payload).length = nsPageSize := by
  rw [nodePage, List.length_append, List.length_append, length_nodeHeader, List.length_replicate]
  omega

theorem getElem?_zero_nodePage (kind : UInt8) (count : Nat) (payload : Bytes) :
    (nodePage kind count payload)[0]? = some kind := rfl

theorem u16At_nodePage {kind : UInt8} {count : Nat} (h : count < 2 ^ 16) (payload : Bytes) :
    (u16At (nodePage kind count payload) 2).toNat = count := by
  have hlen : ([kind, 0] : Bytes).length = 2 := rfl
  rw [nodePage, nodeHeader, List.append_assoc, List.append_assoc, u16At_append hlen,
    UInt16.toNat_ofNat_of_lt' h]

theorem keysAt_nodePage (kind : UInt8) (keys : List UInt64) (payload : Bytes) :
    keysAt (nodePage kind keys.length (words keys ++ payload)) keys.length = keys := by
  refine List.ext_getElem? fun i => ?_
  rw [keysAt, List.getElem?_map]
  rcases Nat.lt_or_ge i keys.length with hlt | hge
  · rw [List.getElem?_range hlt, List.getElem?_eq_getElem hlt, Option.map_some, nodePage,
      ← List.append_assoc, List.append_assoc _ payload,
      u64At_words (List.getElem?_eq_getElem hlt) (length_nodeHeader kind keys.length)]
  · rw [List.getElem?_eq_none (by rwa [List.length_range]), List.getElem?_eq_none hge]
    rfl

section Node

variable {descSize : Nat}

theorem length_nodeHeader_words (kind : UInt8) {count : Nat} {keys : List UInt64}
    (h : keys.length = count) : (nodeHeader kind count ++ words keys).length =
      nsNodeHeaderBytes + count * 8 := by
  rw [List.length_append, length_nodeHeader, length_words, h]

theorem entriesAt_leafPage {es : List NsEntry} (hwidth : ∀ e ∈ es, e.2.length = descSize) :
    entriesAt descSize (leafPage es) es.length = es := by
  have hkeys : keysAt (leafPage es) es.length = es.map Prod.fst := by
    have := keysAt_nodePage nsKindLeaf (es.map Prod.fst) (es.map Prod.snd).flatten
    rwa [List.length_map] at this
  have hdescs : descsAt (leafPage es) es.length descSize = es.map Prod.snd := by
    refine List.ext_getElem? fun i => ?_
    rw [descsAt, List.getElem?_map]
    rcases Nat.lt_or_ge i es.length with hlt | hge
    · have hget : (es.map Prod.snd)[i]? = some (es[i]).2 := by
        rw [List.getElem?_map, List.getElem?_eq_getElem hlt]
        rfl
      rw [List.getElem?_range hlt, hget, Option.map_some, leafPage, nodePage, ← List.append_assoc,
        slice_flatten (List.forall_mem_map.mpr hwidth) hget
          (length_nodeHeader_words nsKindLeaf (List.length_map _))]
    · rw [List.getElem?_eq_none (by rwa [List.length_range]),
        List.getElem?_eq_none (by rwa [List.length_map])]
      rfl
  rw [← zip_keysAt, hkeys, hdescs, List.zip_map']
  exact List.map_id _

theorem childrenAt_internalPage {keys cs : List UInt64} (hcs : cs.length = keys.length + 1) :
    childrenAt (internalPage keys cs) keys.length = cs := by
  refine List.ext_getElem? fun i => ?_
  rw [childrenAt, List.getElem?_map]
  rcases Nat.lt_or_ge i cs.length with hlt | hge
  · rw [List.getElem?_range (by omega), List.getElem?_eq_getElem hlt, Option.map_some, internalPage,
      nodePage, ← List.append_assoc,
      u64At_words (List.getElem?_eq_getElem hlt) (length_nodeHeader_words nsKindInternal rfl)]
  · rw [List.getElem?_eq_none (by rw [List.length_range]; omega), List.getElem?_eq_none hge]
    rfl

theorem nsOrder_lt (hD : 8 ≤ descSize) : nsOrder descSize < 2 ^ 16 := by
  have : nsOrder descSize ≤ 4088 / 16 := Nat.div_le_div_left (by omega) (by omega)
  omega

theorem pageNode_leafPage (hD : 8 ≤ descSize) {es : List NsEntry}
    (hcount : es.length ≤ nsOrder descSize) (hwidth : ∀ e ∈ es, e.2.length = descSize)
    (hasc : Ascending es) : pageNode descSize (leafPage es) = some (.leaf es) := by
  have hsize : (u16At (leafPage es) 2).toNat = es.length :=
    u16At_nodePage (lt_of_le_of_lt hcount (nsOrder_lt hD)) _
  have hkeys : keysAt (leafPage es) es.length = es.map Prod.fst := by
    rw [← map_fst_entriesAt descSize, entriesAt_leafPage hwidth]
  rw [pageNode, hsize, zip_keysAt, entriesAt_leafPage hwidth, hkeys, if_neg]
  · exact if_pos (getElem?_zero_nodePage _ _ _)
  · rw [not_or, not_lt, not_not]
    exact ⟨hcount, List.pairwise_map.mpr hasc⟩

theorem pageNode_internalPage (hD : 8 ≤ descSize) {keys cs : List UInt64}
    (hcount : keys.length ≤ nsOrder descSize) (hcs : cs.length = keys.length + 1)
    (hasc : keys.Pairwise (· < ·)) :
    pageNode descSize (internalPage keys cs) = some (.branch keys cs) := by
  have hsize : (u16At (internalPage keys cs) 2).toNat = keys.length :=
    u16At_nodePage (lt_of_le_of_lt hcount (nsOrder_lt hD)) _
  have hkeys : keysAt (internalPage keys cs) keys.length = keys := keysAt_nodePage _ _ _
  rw [pageNode, hsize, hkeys, childrenAt_internalPage hcs, if_neg, if_neg]
  · exact if_pos (getElem?_zero_nodePage _ _ _)
  · rw [internalPage, getElem?_zero_nodePage]
    decide
  · rw [not_or, not_lt, not_not]
    exact ⟨hcount, hasc⟩

end Node

/-! ### Writing a node -/

section Write

variable {before after mid : Bytes} {page : UInt64}

theorem NsBuilder.writeNodeHeader_eq {b : NsBuilder} (leaf : Bool) (count : Nat)
    (himage : b.image = before ++ (List.replicate nsNodeHeaderBytes 0 ++ after))
    (hbase : before.length = pageBase page) :
    b.writeNodeHeader page leaf count = .ok { b with
      image := before ++
        (nodeHeader (if leaf then nsKindLeaf else nsKindInternal) count ++ after) } := by
  generalize hkind : (if leaf then nsKindLeaf else nsKindInternal) = kind
  -- the four fields are written one behind the other, over zeros
  rw [writeNodeHeader, himage, hkind, put_blank hbase (Nat.le_of_ble_eq_true rfl)]
  dsimp only [bind, Except.bind]
  rw [put_blank (by rw [List.length_append, hbase, List.length_singleton])
    (Nat.le_of_ble_eq_true rfl)]
  dsimp only
  rw [put_blank (by simp only [List.length_append, hbase, List.length_singleton])
    (Nat.le_of_ble_eq_true rfl)]
  dsimp only
  rw [put_blank (by simp only [List.length_append, hbase, List.length_singleton, length_le16])
    (Nat.le_of_ble_eq_true rfl), length_le16, nodeHeader]
  simp only [List.append_assoc, List.cons_append, List.nil_append]
  rfl

theorem writeWords_eq (ws : List UInt64) {off : Nat} (hoff : before.length = off) :
    writeWords off ws (before ++ (List.replicate (ws.length * 8) 0 ++ after)) =
      .ok (before ++ (words ws ++ after)) := by
  induction ws generalizing before off with
  | nil =>
    rw [List.length_nil, Nat.zero_mul]
    rfl
  | cons w ws ih =>
    have hput : (put (before ++ (List.replicate 8 0 ++ (List.replicate (ws.length * 8) 0 ++ after)))
        off (le64 w) : Except (Fault NsError) Bytes) =
        .ok (before ++ (le64 w ++ (List.replicate (ws.length * 8) 0 ++ after))) :=
      put_append hoff (by rw [List.length_replicate, length_le64])
    rw [List.length_cons, Nat.succ_mul, Nat.add_comm, List.replicate_add, List.append_assoc,
      writeWords, hput]
    change writeWords (off + 8) ws (before ++ (le64 w ++ _)) = _
    rw [← List.append_assoc, ih (by rw [List.length_append, length_le64, hoff]), words, words,
      List.flatMap_cons, List.append_assoc, List.append_assoc]

theorem writeEntries_eq {descSize : Nat} (es : List NsEntry)
    (hwidth : ∀ e ∈ es, e.2.length = descSize) {base descBase i : Nat}
    (hkeys : before.length = base + nsNodeHeaderBytes + i * 8)
    (hdescs : before.length + es.length * 8 + mid.length = descBase + i * descSize) :
    writeEntries base descBase descSize i es (before ++ (List.replicate (es.length * 8) 0 ++
        (mid ++ (List.replicate (es.length * descSize) 0 ++ after)))) =
      .ok (before ++ (words (es.map Prod.fst) ++
        (mid ++ ((es.map Prod.snd).flatten ++ after)))) := by
  induction es generalizing before mid i with
  | nil =>
    rw [List.length_nil, Nat.zero_mul, Nat.zero_mul]
    rfl
  | cons e es ih =>
    obtain ⟨key, desc⟩ := e
    have hdesc : desc.length = descSize := hwidth (key, desc) List.mem_cons_self
    rw [List.length_cons] at hdescs ⊢
    have hkeyPut : ∀ rest : Bytes, (put (before ++ (List.replicate 8 0 ++ rest))
        (base + nsNodeHeaderBytes + i * 8) (le64 key) : Except (Fault NsError) Bytes) =
        .ok (before ++ (le64 key ++ rest)) := fun rest =>
      put_append hkeys (by rw [List.length_replicate, length_le64])
    have hdescPut : ∀ rest : Bytes, (put
        (before ++ le64 key ++ List.replicate (es.length * 8) 0 ++ mid ++
          (List.replicate descSize 0 ++ rest))
        (descBase + i * descSize) desc : Except (Fault NsError) Bytes) =
        .ok (before ++ le64 key ++ List.replicate (es.length * 8) 0 ++ mid ++ (desc ++ rest)) :=
      fun rest => put_append (by
        rw [List.length_append, List.length_append, List.length_append, length_le64,
          List.length_replicate]
        omega) (by rw [List.length_replicate, hdesc])
    have hsplitKeys : List.replicate ((es.length + 1) * 8) (0 : UInt8) =
        List.replicate 8 0 ++ List.replicate (es.length * 8) 0 := by
      rw [← List.replicate_add]
      congr 1
      omega
    have hsplitDescs : List.replicate ((es.length + 1) * descSize) (0 : UInt8) =
        List.replicate descSize 0 ++ List.replicate (es.length * descSize) 0 := by
      rw [← List.replicate_add]
      congr 1
      rw [Nat.succ_mul, Nat.add_comm]
    rw [writeEntries, hsplitKeys, hsplitDescs, List.append_assoc, hkeyPut]
    dsimp only [bind, Except.bind]
    have hregroup : before ++ (le64 key ++ (List.replicate (es.length * 8) 0 ++ (mid ++
        (List.replicate descSize 0 ++ List.replicate (es.length * descSize) 0 ++ after)))) =
        before ++ le64 key ++ List.replicate (es.length * 8) 0 ++ mid ++
          (List.replicate descSize 0 ++ (List.replicate (es.length * descSize) 0 ++ after)) := by
      simp only [List.append_assoc]
    rw [hregroup, hdescPut]
    dsimp only
    have hnext : before ++ le64 key ++ List.replicate (es.length * 8) 0 ++ mid ++
        (desc ++ (List.replicate (es.length * descSize) 0 ++ after)) =
        before ++ le64 key ++ (List.replicate (es.length * 8) 0 ++ ((mid ++ desc) ++
          (List.replicate (es.length * descSize) 0 ++ after))) := by
      simp only [List.append_assoc]
    rw [hnext, ih (fun e he => hwidth e (List.mem_cons_of_mem _ he))]
    · simp only [words, List.map_cons, List.flatMap_cons, List.flatten_cons, List.append_assoc]
    · rw [List.length_append, length_le64]
      omega
    · rw [List.length_append, List.length_append, length_le64, hdesc, Nat.succ_mul]
      omega

theorem replicate_page {x y : Nat} (h : nsNodeHeaderBytes + x + y ≤ nsPageSize) :
    List.replicate nsPageSize (0 : UInt8) = List.replicate nsNodeHeaderBytes 0 ++
      (List.replicate x 0 ++ (List.replicate y 0 ++
        List.replicate (nsPageSize - nsNodeHeaderBytes - (x + y)) 0)) := by
  rw [← List.replicate_add, ← List.replicate_add, ← List.replicate_add]
  congr 1
  omega

theorem NsBuilder.writeLeaf_alloc {b : NsBuilder} {es : List NsEntry}
    (hbase : b.image.length = pageBase b.next)
    (hfit : nsNodeHeaderBytes + es.length * 8 + es.length * b.descSize ≤ nsPageSize)
    (hwidth : ∀ e ∈ es, e.2.length = b.descSize) :
    b.alloc.2.writeLeaf b.alloc.1 es =
      .ok { b with next := b.next + 1, image := b.image ++ leafPage es } := by
  have hbase' : b.image.length = pageBase b.alloc.1 := hbase
  have hhead := b.alloc.2.writeNodeHeader_eq true es.length
    (congrArg (b.image ++ ·) (replicate_page hfit)) hbase'
  rw [if_pos rfl] at hhead
  have hlen : (b.image ++ nodeHeader nsKindLeaf es.length).length =
      pageBase b.alloc.1 + nsNodeHeaderBytes := by
    rw [List.length_append, length_nodeHeader, hbase']
  have hentries : ∀ rest : Bytes, writeEntries (pageBase b.alloc.1)
      (pageBase b.alloc.1 + nsNodeHeaderBytes + es.length * 8) b.descSize 0 es
      (b.image ++ nodeHeader nsKindLeaf es.length ++ (List.replicate (es.length * 8) 0 ++ ([] ++
        (List.replicate (es.length * b.descSize) 0 ++ rest)))) =
      .ok (b.image ++ nodeHeader nsKindLeaf es.length ++ (words (es.map Prod.fst) ++ ([] ++
        ((es.map Prod.snd).flatten ++ rest)))) := fun rest =>
    writeEntries_eq es hwidth (by rw [hlen]; omega) (by rw [hlen, List.length_nil]; omega)
  rw [writeLeaf, hhead]
  dsimp only [bind, Except.bind]
  rw [← List.append_assoc, ← List.nil_append (List.replicate (es.length * b.descSize) 0 ++ _)]
  have hdesc : b.alloc.2.descSize = b.descSize := rfl
  rw [hdesc, hentries, leafPage, nodePage, List.length_append, length_words, List.length_map,
    length_flatten_of_forall (List.forall_mem_map.mpr hwidth), List.length_map]
  simp only [List.append_assoc, List.nil_append]
  rfl

theorem NsBuilder.writeInternal_alloc {b : NsBuilder} {keys cs : List UInt64}
    (hbase : b.image.length = pageBase b.next)
    (hfit : nsNodeHeaderBytes + keys.length * 8 + cs.length * 8 ≤ nsPageSize) :
    b.alloc.2.writeInternal b.alloc.1 keys cs =
      .ok { b with next := b.next + 1, image := b.image ++ internalPage keys cs } := by
  have hbase' : b.image.length = pageBase b.alloc.1 := hbase
  have hhead := b.alloc.2.writeNodeHeader_eq false keys.length
    (congrArg (b.image ++ ·) (replicate_page hfit)) hbase'
  have hlen : (b.image ++ nodeHeader nsKindInternal keys.length).length =
      pageBase b.alloc.1 + nsNodeHeaderBytes := by
    rw [List.length_append, length_nodeHeader, hbase']
  rw [writeInternal, hhead]
  dsimp only [bind, Except.bind]
  rw [if_neg Bool.false_ne_true, ← List.append_assoc, writeWords_eq keys hlen]
  dsimp only
  rw [← List.append_assoc, writeWords_eq cs (by rw [List.length_append, hlen, length_words])]
  rw [internalPage, nodePage, List.length_append, length_words, length_words]
  simp only [List.append_assoc]
  rfl

end Write

/-! ### The header of a namespace -/

/-- The header of a namespace whose first root slot is the committed one. -/
def headerBytes (root commit : UInt64) (flags : UInt8) (next : UInt64) : Bytes :=
  nsMagic ++ le64 root ++ le64 0 ++ le64 commit ++ le64 0 ++ [flags] ++ le64 0 ++ le64 next ++
    le64 next

theorem length_headerBytes (root commit : UInt64) (flags : UInt8) (next : UInt64) :
    (headerBytes root commit flags next).length = nsHeaderTotal := by
  simp only [headerBytes, List.length_append, length_le64, List.length_singleton]
  rfl

theorem take_headerBytes (root commit : UInt64) (flags : UInt8) (next : UInt64) (rest : Bytes) :
    (headerBytes root commit flags next ++ rest).take 4 = nsMagic := by
  have hlen : nsMagic.length = 4 := rfl
  simp only [headerBytes, List.append_assoc]
  exact List.take_left' hlen

theorem getElem?_headerBytes (root commit : UInt64) (flags : UInt8) (next : UInt64) (rest : Bytes) :
    (headerBytes root commit flags next ++ rest)[nsOffFlags]? = some flags := by
  have hsplit : headerBytes root commit flags next ++ rest =
      (nsMagic ++ le64 root ++ le64 0 ++ le64 commit ++ le64 0) ++
        flags :: (le64 0 ++ le64 next ++ le64 next ++ rest) := by
    rw [headerBytes]
    simp only [List.append_assoc, List.cons_append, List.nil_append]
  have hoff : nsOffFlags = (nsMagic ++ le64 root ++ le64 0 ++ le64 commit ++ le64 0).length := by
    simp only [List.length_append, length_le64]
    rfl
  rw [hsplit, hoff, List.getElem?_append_right (le_refl _), Nat.sub_self]
  rfl

theorem nsReadHeader_append (root commit : UInt64) (flags : UInt8) (next : UInt64) (rest : Bytes) :
    nsReadHeader (headerBytes root commit flags next ++ rest) =
      if (nsHeaderTotal + rest.length) % nsPageSize ≠ 0 then
        .error (.error (.notPageAligned (nsHeaderTotal + rest.length)))
      else if (nsHeaderTotal + rest.length) / nsPageSize < next.toNat then
        .error (.error (.pageCount next ((nsHeaderTotal + rest.length) / nsPageSize)))
      else .ok ⟨if commit = 0 then 0 else root, commit, flags, next⟩ := by
  generalize himage : headerBytes root commit flags next ++ rest = image
  have hlen : image.length = nsHeaderTotal + rest.length := by
    rw [← himage, List.length_append, length_headerBytes]
  have hmagic : image.take 4 = nsMagic := by
    rw [← himage, take_headerBytes]
  have hfield : ∀ (before after : Bytes) (x : UInt64) {off : Nat}, before.length = off →
      headerBytes root commit flags next ++ rest = before ++ le64 x ++ after →
      u64At image off = x := fun before after x off hoff h => by
    rw [← himage, h]
    exact u64At_append hoff
  have hroot0 : u64At image nsOffRoot0 = root :=
    hfield nsMagic (le64 0 ++ le64 commit ++ le64 0 ++ [flags] ++ le64 0 ++ le64 next ++
      le64 next ++ rest) root rfl (by simp only [headerBytes, List.append_assoc])
  have hroot1 : u64At image nsOffRoot1 = 0 :=
    hfield (nsMagic ++ le64 root) (le64 commit ++ le64 0 ++ [flags] ++ le64 0 ++ le64 next ++
      le64 next ++ rest) 0 rfl (by simp only [headerBytes, List.append_assoc])
  have hcommit0 : u64At image nsOffCommit0 = commit :=
    hfield (nsMagic ++ le64 root ++ le64 0) (le64 0 ++ [flags] ++ le64 0 ++ le64 next ++
      le64 next ++ rest) commit rfl (by simp only [headerBytes, List.append_assoc])
  have hcommit1 : u64At image nsOffCommit1 = 0 :=
    hfield (nsMagic ++ le64 root ++ le64 0 ++ le64 commit) ([flags] ++ le64 0 ++ le64 next ++
      le64 next ++ rest) 0 rfl (by simp only [headerBytes, List.append_assoc])
  have hflags : image[nsOffFlags]? = some flags := by
    rw [← himage, getElem?_headerBytes]
  have hpages : u64At image nsOffPageCount = next :=
    hfield (nsMagic ++ le64 root ++ le64 0 ++ le64 commit ++ le64 0 ++ [flags] ++ le64 0 ++
      le64 next) rest next rfl rfl
  rw [nsReadHeader, if_neg (by omega), if_neg (not_not.mpr hmagic), hlen]
  by_cases halign : (nsHeaderTotal + rest.length) % nsPageSize ≠ 0
  · rw [if_pos halign, if_pos halign]
  rw [if_neg halign, if_neg halign,
    uint64_eq (by rw [hlen]; exact Nat.le_add_right_of_le (by decide)),
    uint64_eq (by rw [hlen]; exact Nat.le_add_right_of_le (by decide)),
    uint64_eq (by rw [hlen]; exact Nat.le_add_right_of_le (by decide)),
    uint64_eq (by rw [hlen]; exact Nat.le_add_right_of_le (by decide)), byteAt_eq hflags,
    uint64_eq (by rw [hlen]; exact Nat.le_add_right_of_le (by decide)),
    hroot0, hroot1, hcommit0, hcommit1, hpages]
  dsimp only [bind, Except.bind]
  by_cases hcount : (nsHeaderTotal + rest.length) / nsPageSize < next.toNat
  · rw [if_pos hcount, if_pos hcount]
  rw [if_neg hcount, if_neg hcount]
  by_cases hcommit : commit = 0
  · rw [if_pos ⟨hcommit, rfl⟩, if_pos hcommit, hcommit]
    rfl
  · rw [if_neg (fun h => hcommit h.1), if_neg UInt64.not_lt_zero, if_neg hcommit]
    rfl

theorem nsReadHeader_headerBytes {root commit next : UInt64} {flags : UInt8} {rest : Bytes}
    (halign : (nsHeaderTotal + rest.length) % nsPageSize = 0)
    (hcount : next.toNat ≤ (nsHeaderTotal + rest.length) / nsPageSize) :
    nsReadHeader (headerBytes root commit flags next ++ rest) =
      .ok ⟨if commit = 0 then 0 else root, commit, flags, next⟩ := by
  rw [nsReadHeader_append, if_neg (not_not.mpr halign), if_neg (not_lt.mpr hcount)]

/-! ### Pages in an image -/

/-- The nodes of pages that are numbered from one. -/
def fetchPages (descSize : Nat) (pages : List Bytes) (page : UInt64) :
    Option (Node UInt64 UInt64 Bytes) :=
  if page = 0 then none else pages[page.toNat - 1]?.bind (pageNode descSize)

theorem fetchPages_append {descSize : Nat} {pages more : List Bytes} {page : UInt64}
    {node : Node UInt64 UInt64 Bytes} (h : fetchPages descSize pages page = some node) :
    fetchPages descSize (pages ++ more) page = some node := by
  rw [fetchPages] at h ⊢
  split at h
  · cases h
  next hpage =>
  rw [if_neg hpage]
  obtain ⟨p, hp, hnode⟩ := Option.bind_eq_some_iff.mp h
  rw [List.getElem?_append_left (List.getElem?_eq_some_iff.mp hp).1, hp]
  exact hnode

theorem fetchPages_concat {descSize : Nat} {pages : List Bytes} {page : UInt64} {bytes : Bytes}
    (hpage : page.toNat = pages.length + 1) :
    fetchPages descSize (pages ++ [bytes]) page = pageNode descSize bytes := by
  have hne : page ≠ 0 := by
    rintro rfl
    exact absurd hpage (by rw [UInt64.toNat_zero]; omega)
  rw [fetchPages, if_neg hne, hpage, Nat.add_sub_cancel, List.getElem?_append_right (le_refl _),
    Nat.sub_self]
  rfl

theorem nsFetch_eq_fetchPages {descSize : Nat} {head tail : Bytes} {pages : List Bytes}
    {pageCount : UInt64} (hhead : head.length = nsPageSize)
    (hpages : ∀ p ∈ pages, p.length = nsPageSize) (hcount : pageCount.toNat = pages.length + 1)
    (page : UInt64) :
    nsFetch (head ++ pages.flatten ++ tail) pageCount descSize page =
      fetchPages descSize pages page := by
  rw [nsFetch, fetchPages]
  by_cases hzero : page = 0
  · rw [if_pos (.inl hzero), if_pos hzero]
  have hpos : page.toNat ≠ 0 := fun h => hzero (UInt64.toNat_inj.mp h)
  rw [if_neg hzero]
  by_cases hlt : pageCount ≤ page
  · rw [if_pos (.inr hlt), List.getElem?_eq_none]
    · rfl
    · have := UInt64.le_iff_toNat_le.mp hlt
      omega
  · have hin := UInt64.lt_iff_toNat_lt.mp (not_le.mp hlt)
    rw [if_neg (not_or.mpr ⟨hzero, hlt⟩)]
    obtain ⟨k, hk⟩ := Nat.exists_eq_succ_of_ne_zero hpos
    have hget : pages[k]? = some pages[k] := List.getElem?_eq_getElem (by omega)
    have hlo : (k + 1) * nsPageSize = nsPageSize + k * nsPageSize := by
      rw [Nat.succ_mul, Nat.add_comm]
    have hhi : nsPageSize + k * nsPageSize + nsPageSize = nsPageSize + (k + 1) * nsPageSize := by
      rw [Nat.succ_mul, Nat.add_assoc]
    rw [pageAt, pageBase, hk, Nat.succ_eq_add_one, Nat.add_sub_cancel, hget, hlo, hhi,
      slice_flatten hpages hget hhead]
    rfl

end Wasmsnapshot
