import WasmRecorder.Lib.Grouping
import WasmRecorder.Wasmsnapshot.Nsb1BulkLoad
import WasmRecorder.Wasmsnapshot.PageCas

/-!
# The page store

The per-trace cache is written as a namespace whose keys lead to chains of page records.

* `encodePageStoreKeyed_eq` — the stream that is written.
* `pageStore_roundTrip` — it is read back as the same cache, and a stream that was cut short is not
  read as anything else.
-/

namespace Wasmsnapshot

open Checked Fallible Grouping LittleEndian Slice

/-! ### Records -/

theorem length_pageRecord (h : Uint128) (page : Bytes) :
    (pageRecord h page).length = pageRecordHeaderSize + page.length := by
  simp only [pageRecord, List.length_append, length_bytes, length_le32]
  rfl

/-- The records of some pages. -/
def records (ps : List (Uint128 × Bytes)) : Bytes := ps.flatMap fun p => pageRecord p.1 p.2

/-- Pages put into a cache one after another. -/
def insertAll (ps : List (Uint128 × Bytes)) (c : PerTraceCache) : PerTraceCache :=
  ps.foldl (fun c p => c.insert p.1 p.2) c

section Chain

variable {hashPage : Bytes → Uint128} {keyOf : Uint128 → UInt64}

/-- A page as the store wants it: of the right size, under its hash, filed under a key. -/
structure Filed (hashPage : Bytes → Uint128) (keyOf : Uint128 → UInt64) (key : UInt64)
    (p : Uint128 × Bytes) : Prop where
  length : p.2.length = pageSize
  hash : hashPage p.2 = p.1
  key : keyOf p.1 = key

theorem decodeChain_cons {key : UInt64} {p : Uint128 × Bytes} (h : Filed hashPage keyOf key p)
    (n : Nat) (rest : Bytes) (c : PerTraceCache) :
    decodeChain hashPage keyOf key n (pageRecord p.1 p.2 ++ rest) c =
      decodeChain hashPage keyOf key (n + 1) rest (c.insert p.1 p.2) := by
  obtain ⟨hash, page⟩ := p
  obtain ⟨hlength, hhash, hkey⟩ := h
  dsimp only at hlength hhash hkey ⊢
  generalize hchain : pageRecord hash page ++ rest = chain
  have hlen : chain.length = pageRecordHeaderSize + pageSize + rest.length := by
    rw [← hchain, List.length_append, length_pageRecord, hlength]
  have hhead : (pageRecord hash page).length = pageRecordHeaderSize + pageSize := by
    rw [length_pageRecord, hlength]
  have hsplit : chain = hash.bytes ++ (le32 (UInt32.ofNat page.length) ++ (le32 0 ++ (page ++ rest))) := by
    rw [← hchain, pageRecord]
    simp only [List.append_assoc]
  have hname : slice chain 0 16 = hash.bytes := by
    rw [slice_zero, hsplit, List.take_left' (length_bytes hash)]
  have hsize : (u32At chain 16).toNat = pageSize := by
    rw [hsplit, ← List.append_assoc, u32At_append (length_bytes hash), hlength]
    rfl
  have hpage : slice chain pageRecordHeaderSize (pageRecordHeaderSize + pageSize) = page := by
    have hfront : (hash.bytes ++ (le32 (UInt32.ofNat page.length) ++ le32 0)).length =
        pageRecordHeaderSize := by
      rw [List.length_append, List.length_append, length_bytes, length_le32, length_le32]
      rfl
    have hassoc : chain = hash.bytes ++ (le32 (UInt32.ofNat page.length) ++ le32 0) ++ page ++ rest := by
      rw [hsplit]
      simp only [List.append_assoc]
    rw [slice, hassoc, List.take_left' (by rw [List.length_append, hfront, hlength]),
      List.drop_left' hfront]
  have hrest : chain.drop (pageRecordHeaderSize + pageSize) = rest := by
    rw [← hchain, List.drop_left' hhead]
  have hpos : 0 < pageSize := by decide
  rw [decodeChain, if_neg (by omega), if_neg (by omega), sub_eq (Nat.zero_le _) (by
    rw [pageRecordHeaderSize] at hlen; omega), uint32_eq (by rw [pageRecordHeaderSize] at hlen; omega)]
  dsimp only [bind, Except.bind]
  rw [hsize, if_neg (not_not.mpr rfl), if_neg (by omega), sub_eq (by omega) (by omega)]
  dsimp only
  rw [hname, uint128FromBytes_bytes, hpage, hrest, if_neg (not_not.mpr hhash),
    if_neg (not_not.mpr hkey)]

theorem decodeChain_records {key : UInt64} {ps : List (Uint128 × Bytes)}
    (h : ∀ p ∈ ps, Filed hashPage keyOf key p) (n : Nat) (c : PerTraceCache) :
    decodeChain hashPage keyOf key n (records ps) c = .ok (n + ps.length, insertAll ps c) := by
  induction ps generalizing n c with
  | nil =>
    have hempty : (records []).length = 0 := rfl
    rw [decodeChain, if_pos hempty]
    rfl
  | cons p ps ih =>
    rw [records, List.flatMap_cons, ← records, decodeChain_cons (h p List.mem_cons_self),
      ih fun q hq => h q (List.mem_cons_of_mem p hq), List.length_cons, Nat.add_assoc,
      Nat.add_comm 1]
    rfl

end Chain

/-! ### Keys and chains -/

section Chains

variable (keyOf : Uint128 → UInt64) (c : PerTraceCache)

theorem storeKeys_perm : (storeKeys keyOf c).Perm (c.keys.map keyOf).dedup :=
  List.mergeSort_perm _ _

theorem mem_storeKeys {key : UInt64} :
    key ∈ storeKeys keyOf c ↔ ∃ h ∈ c.keys, keyOf h = key := by
  rw [(storeKeys_perm keyOf c).mem_iff, List.mem_dedup, List.mem_map]

theorem nodup_storeKeys : (storeKeys keyOf c).Nodup :=
  (storeKeys_perm keyOf c).nodup_iff.mpr (List.nodup_dedup _)

theorem pairwise_storeKeys : (storeKeys keyOf c).Pairwise (· < ·) := by
  have hle : (storeKeys keyOf c).Pairwise (· ≤ ·) := by
    have hsorted : (storeKeys keyOf c).Pairwise fun a b => decide (a ≤ b) = true :=
      List.pairwise_mergeSort
        (fun a b d hab hbd => by
          simpa using le_trans (of_decide_eq_true hab) (of_decide_eq_true hbd))
        (fun a b => by simpa using le_total a b) _
    exact hsorted.imp fun h => of_decide_eq_true h
  exact hle.imp₂ (fun a b hab hne => lt_of_le_of_ne hab hne) (nodup_storeKeys keyOf c)

theorem length_storeKeys_le : (storeKeys keyOf c).length ≤ c.entries.length := by
  rw [(storeKeys_perm keyOf c).length_eq]
  refine le_trans (List.dedup_sublist _).length_le ?_
  rw [List.length_map, AList.keys, List.keys, List.length_map]

/-- The pages filed under a key, with their content. -/
def chainPages (key : UInt64) : List (Uint128 × Bytes) :=
  (chainOf keyOf c key).map fun h => (h, (c.lookup h).getD [])

theorem chainBytes_eq (key : UInt64) : chainBytes keyOf c key = records (chainPages keyOf c key) := by
  rw [chainBytes, records, chainPages, List.flatMap_map]

theorem chainPages_ne_nil {key : UInt64} (h : key ∈ storeKeys keyOf c) :
    chainPages keyOf c key ≠ [] := by
  obtain ⟨hash, hmem, hkey⟩ := (mem_storeKeys keyOf c).mp h
  have : hash ∈ chainOf keyOf c key := by
    rw [chainOf, List.mem_mergeSort, List.mem_filter]
    exact ⟨hmem, decide_eq_true hkey⟩
  rw [chainPages, Ne, List.map_eq_nil_iff]
  exact List.ne_nil_of_mem this

/-- A page of the cache as a pair. -/
def pagePair (e : Sigma fun _ : Uint128 => Bytes) : Uint128 × Bytes := (e.1, e.2)

theorem map_lookup_keys : (c.keys.map fun h => (h, (c.lookup h).getD [])) =
    c.entries.map pagePair := by
  rw [AList.keys, List.keys, List.map_map]
  refine List.map_congr_left fun e he => ?_
  have hlookup : c.lookup e.1 = some e.2 := AList.mem_lookup_iff.mpr he
  rw [Function.comp_apply, hlookup]
  rfl

theorem storePages_perm :
    ((storeKeys keyOf c).flatMap (chainPages keyOf c)).Perm (c.entries.map pagePair) := by
  rw [← map_lookup_keys]
  have hchains : ((storeKeys keyOf c).flatMap (chainOf keyOf c)).Perm c.keys := by
    refine (List.Perm.flatMap (List.Perm.refl _) fun key _ => List.mergeSort_perm _ _).trans ?_
    refine flatMap_filter_perm (nodup_storeKeys keyOf c) fun h hh => ?_
    exact (mem_storeKeys keyOf c).mpr ⟨h, hh, rfl⟩
  have := hchains.map fun h => (h, (c.lookup h).getD [])
  rwa [List.map_flatMap] at this

theorem mem_chainPages {key : UInt64} {p : Uint128 × Bytes} (hp : p ∈ chainPages keyOf c key) :
    keyOf p.1 = key ∧ ∃ e ∈ c.entries, p = pagePair e := by
  rw [chainPages, List.mem_map] at hp
  obtain ⟨h, hmem, rfl⟩ := hp
  rw [chainOf, List.mem_mergeSort, List.mem_filter] at hmem
  refine ⟨of_decide_eq_true hmem.2, ?_⟩
  have : (h, (c.lookup h).getD []) ∈ c.entries.map pagePair := by
    rw [← map_lookup_keys]
    exact List.mem_map_of_mem hmem.1
  obtain ⟨e, he, heq⟩ := List.mem_map.mp this
  exact ⟨e, he, heq.symm⟩

end Chains

theorem insertAll_perm {ps : List (Uint128 × Bytes)} {c : PerTraceCache}
    (hnodup : (ps.map Prod.fst).Nodup) (hnew : ∀ p ∈ ps, p.1 ∉ c) :
    ((insertAll ps c).entries.map pagePair).Perm (ps ++ c.entries.map pagePair) := by
  induction ps generalizing c with
  | nil => exact List.Perm.refl _
  | cons p ps ih =>
    rw [List.map_cons, List.nodup_cons] at hnodup
    have hp := hnew p List.mem_cons_self
    have hinsert : (c.insert p.1 p.2).entries = ⟨p.1, p.2⟩ :: c.entries := by
      rw [PerTraceCache.insert, if_neg hp, AList.entries_insert_of_notMem hp]
    have hrest : ∀ q ∈ ps, q.1 ∉ c.insert p.1 p.2 := by
      intro q hq hmem
      rw [PerTraceCache.insert, if_neg hp, AList.mem_insert] at hmem
      rcases hmem with heq | hmem
      · exact hnodup.1 (heq ▸ List.mem_map_of_mem hq)
      · exact hnew q (List.mem_cons_of_mem p hq) hmem
    refine (ih hnodup.2 hrest).trans ?_
    rw [hinsert, List.map_cons]
    exact List.perm_middle

/-! ### The stream -/

section Stream

variable (keyOf : Uint128 → UInt64) (c : PerTraceCache)

/-- The descriptors of chains that begin at an offset of the stream. -/
def chainEntries : List UInt64 → Nat → List NsEntry
  | [], _ => []
  | key :: keys, off =>
    let length := (chainBytes keyOf c key).length
    (key, le64 (UInt64.ofNat off) ++ le64 (UInt64.ofNat length)) :: chainEntries keys (off + length)

theorem map_fst_chainEntries (keys : List UInt64) (off : Nat) :
    (chainEntries keyOf c keys off).map Prod.fst = keys := by
  induction keys generalizing off with
  | nil => rfl
  | cons key keys ih => rw [chainEntries, List.map_cons, ih]

theorem length_desc_chainEntries (keys : List UInt64) (off : Nat) :
    ∀ e ∈ chainEntries keyOf c keys off, e.2.length = pageStoreDescSize := by
  induction keys generalizing off with
  | nil => exact List.forall_mem_nil _
  | cons key keys ih =>
    rw [chainEntries, List.forall_mem_cons]
    refine ⟨?_, ih _⟩
    rw [List.length_append, length_le64, length_le64]
    rfl

theorem appendChains_eq (base : Nat) (keys : List UInt64) (payload : Bytes) (final : List NsEntry) :
    appendChains keyOf c (UInt64.ofNat base) keys (payload, final) =
      (payload ++ keys.flatMap (chainBytes keyOf c),
        final ++ chainEntries keyOf c keys (base + payload.length)) := by
  induction keys generalizing payload final with
  | nil => rw [List.flatMap_nil, List.append_nil, chainEntries, List.append_nil, appendChains]
  | cons key keys ih =>
    have hlength : UInt64.ofNat base + UInt64.ofNat (payload ++ chainBytes keyOf c key).length -
        (UInt64.ofNat base + UInt64.ofNat payload.length) =
          UInt64.ofNat (chainBytes keyOf c key).length := by
      rw [List.length_append, UInt64.ofNat_add, ← UInt64.add_assoc,
        UInt64.add_comm _ (UInt64.ofNat (chainBytes keyOf c key).length), UInt64.add_sub_cancel]
    rw [appendChains, hlength, ih, chainEntries, List.flatMap_cons, List.append_assoc, List.append_assoc,
      List.length_append, UInt64.ofNat_add, Nat.add_assoc]
    rfl

theorem length_chains :
    ((storeKeys keyOf c).flatMap (chainBytes keyOf c)).length = payloadBytes c := by
  have hflat : (storeKeys keyOf c).flatMap (chainBytes keyOf c) =
      records ((storeKeys keyOf c).flatMap (chainPages keyOf c)) := by
    rw [records, List.flatMap_assoc]
    exact List.flatMap_congr fun key _ => chainBytes_eq keyOf c key
  have hsum : ∀ ps : List (Uint128 × Bytes), (records ps).length =
      (ps.map fun p => pageRecordHeaderSize + p.2.length).sum := by
    intro ps
    induction ps with
    | nil => rfl
    | cons p ps ih =>
      rw [records, List.flatMap_cons, List.length_append, length_pageRecord, ← records, ih,
        List.map_cons, List.sum_cons]
  rw [hflat, hsum, ((storePages_perm keyOf c).map _).sum_eq, payloadBytes, List.map_map]
  rfl

/-- The rest of the header page, with the version record. -/
def storeRest (keyCount : Nat) : Bytes :=
  List.replicate 3 0 ++ pageStoreSidecarMagic ++ le16 snapshotFormatVersion ++ le16 0 ++
    le32 (UInt32.ofNat pageSize) ++ le32 (UInt32.ofNat keyCount) ++
    List.replicate (nsPageSize - pageStoreSidecarOffset - pageStoreSidecarSize) 0

theorem length_storeRest (keyCount : Nat) :
    nsHeaderTotal + (storeRest keyCount).length = nsPageSize := by
  simp only [storeRest, List.length_append, List.length_replicate, length_le16, length_le32]
  rfl

theorem writePageStoreSidecar_eq {head after : Bytes} (hhead : head.length = nsHeaderTotal)
    (keyCount : Nat) :
    writePageStoreSidecar
        (head ++ (List.replicate (nsPageSize - nsHeaderTotal) 0 ++ after)) keyCount =
      .ok (head ++ (storeRest keyCount ++ after)) := by
  have hsplit : List.replicate (nsPageSize - nsHeaderTotal) (0 : UInt8) =
      List.replicate 3 0 ++ List.replicate (nsPageSize - pageStoreSidecarOffset) 0 := by
    rw [← List.replicate_add]
    rfl
  have hbefore : (head ++ List.replicate 3 (0 : UInt8)).length = pageStoreSidecarOffset := by
    rw [List.length_append, hhead, List.length_replicate]
    rfl
  rw [hsplit, List.append_assoc, ← List.append_assoc head]
  change putFields _ pageStoreSidecarOffset [pageStoreSidecarMagic, le16 snapshotFormatVersion,
    le16 0, le32 (UInt32.ofNat pageSize), le32 (UInt32.ofNat keyCount)] = _
  rw [putFields_blank _ hbefore, storeRest]
  · simp [pageStoreSidecarMagic, pageStoreSidecarSize]
  · simp only [List.flatten_cons, List.length_append, length_le16, length_le32]
    decide

theorem nsBulkLoad_store {es : List NsEntry} (h : Loadable pageStoreDescSize es) :
    ∃ root commit next pages, nsBulkLoad es pageStoreDescSize pageStoreFlags =
        .ok (headerBytes root commit pageStoreFlags next ++
          (List.replicate (nsPageSize - nsHeaderTotal) 0 ++ pages.flatten)) ∧
      Layout pageStoreDescSize es root commit next pages ∧
      pages.length = pagesFor pageStoreDescSize es.length :=
  nsBulkLoad_spec (by decide) (by decide) h pageStoreFlags

theorem Layout.length_image {es : List NsEntry} {root commit next : UInt64} {pages : List Bytes}
    (h : Layout pageStoreDescSize es root commit next pages) (flags : UInt8) :
    (headerBytes root commit flags next ++
      (List.replicate (nsPageSize - nsHeaderTotal) 0 ++ pages.flatten)).length =
        (pages.length + 1) * nsPageSize := by
  rw [List.length_append, List.length_append, length_headerBytes, List.length_replicate,
    length_flatten_of_forall h.pageLength, Nat.succ_mul]
  have : nsHeaderTotal ≤ nsPageSize := by decide
  omega

/-- Where the payload begins. -/
def payloadStart : Nat :=
  (pagesFor pageStoreDescSize (storeKeys keyOf c).length + 1) * nsPageSize + payloadPad c

theorem encodePageStoreKeyed_eq :
    ∃ root commit next pages,
      Layout pageStoreDescSize (chainEntries keyOf c (storeKeys keyOf c) (payloadStart keyOf c))
        root commit next pages ∧
      (pages.length + 1) * nsPageSize + payloadPad c = payloadStart keyOf c ∧
      encodePageStoreKeyed keyOf c = .ok (headerBytes root commit pageStoreFlags next ++
        (storeRest (storeKeys keyOf c).length ++ (pages.flatten ++
          (List.replicate (payloadPad c) 0 ++
            (storeKeys keyOf c).flatMap (chainBytes keyOf c))))) := by
  have hasc : ∀ {es : List NsEntry}, es.map Prod.fst = storeKeys keyOf c → Ascending es := by
    intro es hes
    have := pairwise_storeKeys keyOf c
    rwa [← hes, List.pairwise_map] at this
  have hzero : Loadable pageStoreDescSize
      ((storeKeys keyOf c).map fun k => (k, List.replicate pageStoreDescSize 0)) := by
    refine ⟨List.forall_mem_map.mpr fun _ _ => List.length_replicate, hasc ?_⟩
    rw [List.map_map]
    exact List.map_id _
  have hfinal : Loadable pageStoreDescSize
      (chainEntries keyOf c (storeKeys keyOf c) (payloadStart keyOf c)) :=
    ⟨length_desc_chainEntries keyOf c _ _, hasc (map_fst_chainEntries keyOf c _ _)⟩
  obtain ⟨root₀, commit₀, next₀, pages₀, hload₀, hlayout₀, hpages₀⟩ := nsBulkLoad_store hzero
  obtain ⟨root, commit, next, pages, hload, hlayout, hpages⟩ := nsBulkLoad_store hfinal
  rw [List.length_map] at hpages₀
  have hcount := congrArg List.length
    (map_fst_chainEntries keyOf c (storeKeys keyOf c) (payloadStart keyOf c))
  rw [List.length_map] at hcount
  rw [hcount] at hpages
  refine ⟨root, commit, next, pages, hlayout, by rw [hpages, payloadStart], ?_⟩
  rw [encodePageStoreKeyed, hload₀]
  dsimp only [orPanic, bind, Except.bind]
  rw [hlayout₀.length_image, hpages₀, ← payloadStart, appendChains_eq, List.nil_append,
    List.nil_append, List.length_nil, Nat.add_zero, hload]
  dsimp only
  rw [hlayout.length_image, hpages, ← payloadStart, length_chains, if_neg (by simp),
    writePageStoreSidecar_eq (length_headerBytes _ _ _ _)]
  dsimp only
  simp only [List.append_assoc]
  rfl

end Stream

/-! ### Reading the stream -/

section Read

variable {hashPage : Bytes → Uint128} {keyOf : Uint128 → UInt64}

/-- The version record. -/
def sidecar (keyCount : Nat) : Bytes :=
  pageStoreSidecarMagic ++ le16 snapshotFormatVersion ++ le16 0 ++ le32 (UInt32.ofNat pageSize) ++
    le32 (UInt32.ofNat keyCount)

theorem slice_sidecar {head : Bytes} (hhead : head.length = nsHeaderTotal) (keyCount : Nat)
    (more : Bytes) :
    slice (head ++ (storeRest keyCount ++ more)) pageStoreSidecarOffset
      (pageStoreSidecarOffset + pageStoreSidecarSize) = sidecar keyCount := by
  have hbefore : (head ++ List.replicate 3 (0 : UInt8)).length = pageStoreSidecarOffset := by
    rw [List.length_append, hhead, List.length_replicate]
    rfl
  have hsize : (sidecar keyCount).length = pageStoreSidecarSize := by
    simp only [sidecar, List.length_append, length_le16, length_le32]
    rfl
  have hsplit : head ++ (storeRest keyCount ++ more) =
      head ++ List.replicate 3 0 ++ sidecar keyCount ++
        (List.replicate (nsPageSize - pageStoreSidecarOffset - pageStoreSidecarSize) 0 ++ more) := by
    rw [storeRest, sidecar]
    simp only [List.append_assoc]
  rw [hsplit, slice, List.take_left' (by rw [List.length_append, hbefore, hsize]),
    List.drop_left' hbefore]

theorem decodePageStoreKeyed_append (root commit next : UInt64) {keyCount : Nat}
    (hcount : keyCount < 2 ^ 32) (more : Bytes) :
    decodePageStoreKeyed hashPage keyOf
        (headerBytes root commit pageStoreFlags next ++ (storeRest keyCount ++ more)) = (do
      let entries ← collectStore
        (headerBytes root commit pageStoreFlags next ++ (storeRest keyCount ++ more))
      if entries.length ≠ keyCount then .error (.error (.keyCount keyCount entries.length))
      else entries.foldlM (decodeEntry hashPage keyOf
        (headerBytes root commit pageStoreFlags next ++ (storeRest keyCount ++ more))) ∅) := by
  have hside := slice_sidecar (length_headerBytes root commit pageStoreFlags next) keyCount more
  have hmagic : (headerBytes root commit pageStoreFlags next ++
      (storeRest keyCount ++ more)).take 4 = nsMagic := take_headerBytes _ _ _ _ _
  have hlen : (headerBytes root commit pageStoreFlags next ++
      (storeRest keyCount ++ more)).length = nsPageSize + more.length := by
    rw [List.length_append, List.length_append, length_headerBytes, ← Nat.add_assoc,
      length_storeRest]
  have hflags : (headerBytes root commit pageStoreFlags next ++
      (storeRest keyCount ++ more))[nsOffFlags]? = some pageStoreFlags := getElem?_headerBytes _ _ _ _ _
  generalize headerBytes root commit pageStoreFlags next ++ (storeRest keyCount ++ more) = raw at *
  have hversion : u16At (sidecar keyCount) 4 = snapshotFormatVersion := by
    have hoff : pageStoreSidecarMagic.length = 4 := rfl
    rw [sidecar]
    simp only [List.append_assoc]
    rw [← List.append_assoc, u16At_append hoff]
  have hsize : u32At (sidecar keyCount) 8 = UInt32.ofNat pageSize := by
    have hoff : (pageStoreSidecarMagic ++ le16 snapshotFormatVersion ++ le16 0).length = 8 := by
      simp only [List.length_append, length_le16]
      rfl
    rw [sidecar, u32At_append hoff]
  have hkeys : (u32At (sidecar keyCount) 12).toNat = keyCount := by
    have hoff : (pageStoreSidecarMagic ++ le16 snapshotFormatVersion ++ le16 0 ++
        le32 (UInt32.ofNat pageSize)).length = 12 := by
      simp only [List.length_append, length_le16, length_le32]
      rfl
    rw [sidecar, ← List.append_nil (_ ++ le32 (UInt32.ofNat keyCount)), u32At_append hoff,
      UInt32.toNat_ofNat_of_lt' hcount]
  have hlenSide : (sidecar keyCount).length = 16 := by
    simp only [sidecar, List.length_append, length_le16, length_le32]
    rfl
  have hsideMagic : (sidecar keyCount).take 4 = pageStoreSidecarMagic := by
    rw [sidecar]
    rfl
  have hpage : nsPageSize = 4096 := rfl
  rw [decodePageStoreKeyed, if_neg (by omega), if_neg (by omega), if_neg (not_not.mpr hmagic),
    sub_eq (by decide) (by rw [hlen]; exact Nat.le_add_right_of_le (by decide)), hside,
    ok_bind, if_neg (not_not.mpr hsideMagic), uint16_eq (by omega), uint32_eq (by omega),
    uint32_eq (by omega), byteAt_eq hflags, ok_bind, ok_bind, ok_bind, ok_bind, hversion, hsize,
    hkeys, if_neg (not_not.mpr rfl), if_neg (not_not.mpr rfl), if_neg (by decide)]

theorem uint64_desc (off length : Nat) :
    (uint64 (le64 (UInt64.ofNat off) ++ le64 (UInt64.ofNat length)) 0 :
        Except (Fault PageStoreError) UInt64) = .ok (UInt64.ofNat off) ∧
      (uint64 (le64 (UInt64.ofNat off) ++ le64 (UInt64.ofNat length)) 8 :
        Except (Fault PageStoreError) UInt64) = .ok (UInt64.ofNat length) := by
  have hlen : (le64 (UInt64.ofNat off) ++ le64 (UInt64.ofNat length)).length = 16 := by
    rw [List.length_append, length_le64, length_le64]
  have hoff : u64At ([] ++ le64 (UInt64.ofNat off) ++ le64 (UInt64.ofNat length)) 0 =
      UInt64.ofNat off := u64At_append rfl
  have hlength : u64At (le64 (UInt64.ofNat off) ++ le64 (UInt64.ofNat length) ++ []) 8 =
      UInt64.ofNat length := u64At_append (length_le64 _)
  rw [List.nil_append] at hoff
  rw [List.append_nil] at hlength
  rw [uint64_eq (by omega), uint64_eq (by omega), hlength]
  exact ⟨congrArg _ hoff, rfl⟩

theorem toNat_ofNat_add {off length : Nat} (h : off + length < 2 ^ 64) :
    (UInt64.ofNat off + UInt64.ofNat length).toNat = off + length := by
  rw [← UInt64.ofNat_add, UInt64.toNat_ofNat_of_lt' h]

theorem decodeEntry_ok {raw : Bytes} (hraw : raw.length < 2 ^ 64) {key : UInt64} {off length : Nat}
    (hin : off + length ≤ raw.length) {ps : List (Uint128 × Bytes)}
    (hrecords : slice raw off (off + length) = records ps) (hne : ps ≠ [])
    (hps : ∀ p ∈ ps, Filed hashPage keyOf key p) (c : PerTraceCache) :
    decodeEntry hashPage keyOf raw c (key, le64 (UInt64.ofNat off) ++ le64 (UInt64.ofNat length)) =
      .ok (insertAll ps c) := by
  have hstop : (UInt64.ofNat off + UInt64.ofNat length).toNat = off + length :=
    toNat_ofNat_add (by omega)
  have hstart : (UInt64.ofNat off).toNat = off :=
    UInt64.toNat_ofNat_of_lt' (by change _ < 2 ^ 64; omega)
  have hchain := decodeChain_records hps 0 c
  rw [Nat.zero_add] at hchain
  rw [decodeEntry, (uint64_desc off length).1, ok_bind, (uint64_desc off length).2, ok_bind,
    if_neg, hstop, hstart, sub_eq (by omega) hin, ok_bind, hrecords, hchain, ok_bind]
  · exact if_neg fun h => hne (List.eq_nil_of_length_eq_zero h)
  · rw [not_or, not_lt, not_lt, UInt64.le_iff_toNat_le, hstop, hstart]
    omega

theorem decodeEntry_past {raw : Bytes} {key : UInt64} {off length : Nat}
    (hout : raw.length < off + length) (hlt : off + length < 2 ^ 64) (c : PerTraceCache) :
    ∃ e, decodeEntry hashPage keyOf raw c
      (key, le64 (UInt64.ofNat off) ++ le64 (UInt64.ofNat length)) = .error (.error e) := by
  refine ⟨.entryRange key (UInt64.ofNat off) (UInt64.ofNat off + UInt64.ofNat length) raw.length, ?_⟩
  rw [decodeEntry, (uint64_desc off length).1, ok_bind, (uint64_desc off length).2, ok_bind]
  exact if_pos (.inr (by rw [toNat_ofNat_add hlt]; exact hout))

variable {c : PerTraceCache}

/-- What a cache has to satisfy: pages are whole and filed under their own hash. -/
def WellFiled (hashPage : Bytes → Uint128) (c : PerTraceCache) : Prop :=
  ∀ e ∈ c.entries, e.2.length = pageSize ∧ hashPage e.2 = e.1

theorem WellFiled.filed (h : WellFiled hashPage c) {key : UInt64} {p : Uint128 × Bytes}
    (hp : p ∈ chainPages keyOf c key) : Filed hashPage keyOf key p := by
  obtain ⟨hkey, e, he, rfl⟩ := mem_chainPages keyOf c hp
  obtain ⟨hlength, hhash⟩ := h e he
  exact ⟨hlength, hhash, hkey⟩

theorem decodeEntries_ok (hc : WellFiled hashPage c) {keys : List UInt64}
    (hkeys : ∀ key ∈ keys, key ∈ storeKeys keyOf c) {front : Bytes}
    (hlt : (front ++ keys.flatMap (chainBytes keyOf c)).length < 2 ^ 64) (c' : PerTraceCache) :
    (chainEntries keyOf c keys front.length).foldlM
        (decodeEntry hashPage keyOf (front ++ keys.flatMap (chainBytes keyOf c))) c' =
      .ok (insertAll (keys.flatMap (chainPages keyOf c)) c') := by
  induction keys generalizing front c' with
  | nil => rfl
  | cons key keys ih =>
    have hslice : slice (front ++ (key :: keys).flatMap (chainBytes keyOf c)) front.length
        (front.length + (chainBytes keyOf c key).length) = records (chainPages keyOf c key) := by
      rw [← chainBytes_eq, List.flatMap_cons, ← List.append_assoc, slice,
        List.take_left' (List.length_append), List.drop_left]
    have hin : front.length + (chainBytes keyOf c key).length ≤
        (front ++ (key :: keys).flatMap (chainBytes keyOf c)).length := by
      rw [List.flatMap_cons, List.length_append, List.length_append]
      omega
    have hentry := decodeEntry_ok hlt hin hslice
      (chainPages_ne_nil keyOf c (hkeys key List.mem_cons_self)) (fun p hp => hc.filed hp) c'
    have hlt' : (front ++ chainBytes keyOf c key ++ keys.flatMap (chainBytes keyOf c)).length <
        2 ^ 64 := by
      rwa [List.flatMap_cons, ← List.append_assoc] at hlt
    have hnext := ih (fun k hk => hkeys k (List.mem_cons_of_mem key hk)) hlt'
      (insertAll (chainPages keyOf c key) c')
    rw [chainEntries, List.foldlM_cons, hentry, ok_bind, List.flatMap_cons, ← List.append_assoc,
      ← List.length_append, hnext, insertAll, insertAll, insertAll, List.flatMap_cons,
      List.foldl_append]

theorem decodeEntries_cut (hc : WellFiled hashPage c) {keys : List UInt64}
    (hkeys : ∀ key ∈ keys, key ∈ storeKeys keyOf c) (hne : keys ≠ []) {front : Bytes}
    (hlt : (front ++ keys.flatMap (chainBytes keyOf c)).length < 2 ^ 64) {n : Nat}
    (hn : n < (front ++ keys.flatMap (chainBytes keyOf c)).length) (c' : PerTraceCache) :
    ∃ e, (chainEntries keyOf c keys front.length).foldlM (decodeEntry hashPage keyOf
      ((front ++ keys.flatMap (chainBytes keyOf c)).take n)) c' = .error (.error e) := by
  induction keys generalizing front c' with
  | nil => exact absurd rfl hne
  | cons key keys ih =>
    have hassoc : front ++ (key :: keys).flatMap (chainBytes keyOf c) =
        front ++ chainBytes keyOf c key ++ keys.flatMap (chainBytes keyOf c) := by
      rw [List.flatMap_cons, List.append_assoc]
    rw [hassoc] at hlt hn ⊢
    have htake : ((front ++ chainBytes keyOf c key ++
        keys.flatMap (chainBytes keyOf c)).take n).length = n := by
      rw [List.length_take, Nat.min_eq_left (by omega)]
    rw [chainEntries, List.foldlM_cons]
    rcases Nat.lt_or_ge n (front.length + (chainBytes keyOf c key).length) with hcut | hwhole
    · rw [List.length_append, List.length_append] at hlt
      have hpast : ∃ e, decodeEntry hashPage keyOf _ c' (key, _) = .error (.error e) :=
        decodeEntry_past (by rw [htake]; exact hcut) (by omega) c'
      obtain ⟨e, he⟩ := hpast
      rw [he]
      exact ⟨e, rfl⟩
    · have hslice : slice ((front ++ chainBytes keyOf c key ++
          keys.flatMap (chainBytes keyOf c)).take n) front.length
          (front.length + (chainBytes keyOf c key).length) = records (chainPages keyOf c key) := by
        rw [← chainBytes_eq, slice, List.take_take, Nat.min_eq_left hwhole,
          List.take_left' List.length_append, List.drop_left]
      have hentry := decodeEntry_ok (by rw [htake]; omega) (by rw [htake]; exact hwhole) hslice
        (chainPages_ne_nil keyOf c (hkeys key List.mem_cons_self)) (fun p hp => hc.filed hp) c'
      have hrest : keys ≠ [] := by
        rintro rfl
        rw [List.flatMap_nil, List.append_nil, List.length_append] at hn
        omega
      obtain ⟨e, he⟩ := ih (fun k hk => hkeys k (List.mem_cons_of_mem key hk)) hrest hlt hn
        (insertAll (chainPages keyOf c key) c')
      rw [hentry, ok_bind, ← List.length_append]
      exact ⟨e, he⟩

/-! ### Sizes -/

theorem pagesAbove_le {order : Nat} (horder : 2 ≤ order) (n : Nat) : pagesAbove order n ≤ n := by
  induction n using Nat.strongRecOn with
  | ind n ih =>
    rw [pagesAbove]
    split
    · exact Nat.zero_le _
    · next h =>
      rw [not_or, not_le] at h
      have hhalf := two_mul_parents_le horder h.2
      have hpos : 0 < (n + order) / (order + 1) := Nat.div_pos (by omega) (by omega)
      have := ih _ (show (n + order) / (order + 1) < n by omega)
      omega

theorem pagesFor_le (n : Nat) : pagesFor pageStoreDescSize n ≤ 2 * n := by
  have horder : nsOrder pageStoreDescSize = 170 := by decide
  rw [pagesFor, horder]
  have habove : pagesAbove 170 ((n + 170 - 1) / 170) ≤ (n + 170 - 1) / 170 :=
    pagesAbove_le (by omega) _
  omega

theorem WellFiled.payloadBytes_eq (hc : WellFiled hashPage c) :
    payloadBytes c = c.entries.length * (pageRecordHeaderSize + pageSize) := by
  rw [payloadBytes, List.map_congr_left fun e he => by rw [(hc e he).1], List.map_const',
    List.sum_replicate]
  rfl

theorem WellFiled.length_lt (hc : WellFiled hashPage c) (hfits : payloadBytes c ≤ maxAlloc) :
    c.entries.length < 2 ^ 32 := by
  rw [hc.payloadBytes_eq, pageRecordHeaderSize, pageSize, maxAlloc] at hfits
  omega

theorem payloadStart_le (hlt : c.entries.length < 2 ^ 32) : payloadStart keyOf c ≤ 2 ^ 46 := by
  have hkeys := length_storeKeys_le keyOf c
  have hpages := pagesFor_le (storeKeys keyOf c).length
  have hpad : payloadPad c < nsPageSize := Nat.mod_lt _ (by decide)
  rw [payloadStart]
  rw [nsPageSize] at hpad ⊢
  omega

theorem collectStore_ok {es : List NsEntry} {root commit next : UInt64} {pages : List Bytes}
    (h : Layout pageStoreDescSize es root commit next pages) (keyCount : Nat) {tail : Bytes}
    (htail : tail.length % nsPageSize = 0) :
    collectStore (headerBytes root commit pageStoreFlags next ++
      (storeRest keyCount ++ (pages.flatten ++ tail))) = .ok es := by
  rw [collectStore, (h.read (by decide) pageStoreFlags (length_storeRest keyCount) htail).1]

theorem collectStore_cut {root commit next : UInt64} {keyCount : Nat} {more : Bytes}
    (h : (nsPageSize + more.length) % nsPageSize ≠ 0 ∨
      (nsPageSize + more.length) / nsPageSize < next.toNat) :
    ∃ e, collectStore (headerBytes root commit pageStoreFlags next ++
      (storeRest keyCount ++ more)) = .error (.error e) := by
  have hlen : nsHeaderTotal + (storeRest keyCount ++ more).length = nsPageSize + more.length := by
    rw [List.length_append, ← Nat.add_assoc, length_storeRest]
  rw [collectStore, nsCollect, nsReadHeader_append, hlen]
  by_cases halign : (nsPageSize + more.length) % nsPageSize ≠ 0
  · rw [if_pos halign]
    exact ⟨_, rfl⟩
  · rw [if_neg halign, if_pos (h.resolve_left halign)]
    exact ⟨_, rfl⟩

theorem chains_end (keyOf : Uint128 → UInt64) (hne : c.entries ≠ []) :
    ∃ front, ∃ e ∈ c.entries,
      (storeKeys keyOf c).flatMap (chainBytes keyOf c) = front ++ pageRecord e.1 e.2 := by
  obtain ⟨e₀, he₀⟩ := List.exists_mem_of_ne_nil _ hne
  have hkey : keyOf e₀.1 ∈ storeKeys keyOf c :=
    (mem_storeKeys keyOf c).mpr ⟨e₀.1, List.mem_map_of_mem he₀, rfl⟩
  rcases List.eq_nil_or_concat' (storeKeys keyOf c) with hnil | ⟨keys, key, hkeys⟩
  · rw [hnil] at hkey
    cases hkey
  have hlast : chainPages keyOf c key ≠ [] :=
    chainPages_ne_nil keyOf c (by rw [hkeys]; exact List.mem_append_right _ List.mem_cons_self)
  rcases List.eq_nil_or_concat' (chainPages keyOf c key) with hnil | ⟨ps, p, hps⟩
  · exact absurd hnil hlast
  have hp : p ∈ chainPages keyOf c key := by
    rw [hps]
    exact List.mem_append_right _ List.mem_cons_self
  obtain ⟨-, e, he, rfl⟩ := mem_chainPages keyOf c hp
  refine ⟨keys.flatMap (chainBytes keyOf c) ++ records ps, e, he, ?_⟩
  rw [hkeys, List.flatMap_append, List.flatMap_singleton, chainBytes_eq, hps, records, records,
    List.flatMap_append, List.flatMap_singleton, List.append_assoc]
  rfl

theorem toFinmap_insertAll (keyOf : Uint128 → UInt64) (c : PerTraceCache) :
    (insertAll ((storeKeys keyOf c).flatMap (chainPages keyOf c)) ∅).toFinmap = c.toFinmap := by
  have hperm := storePages_perm keyOf c
  have hnodup : (((storeKeys keyOf c).flatMap (chainPages keyOf c)).map Prod.fst).Nodup := by
    rw [(hperm.map Prod.fst).nodup_iff, List.map_map]
    exact c.keys_nodup
  have hall := insertAll_perm hnodup fun p _ => AList.notMem_empty p.1
  rw [AList.empty_entries, List.map_nil, List.append_nil] at hall
  rw [AList.toFinmap_eq]
  have hinj : Function.Injective pagePair := by
    rintro ⟨a, b⟩ ⟨a', b'⟩ h
    cases h
    rfl
  exact (List.map_perm_map_iff hinj).mp (hall.trans hperm)

section Written

variable {root commit next : UInt64} {pages : List Bytes}

/-- A stream up to its chains. -/
def storeFront (keyOf : Uint128 → UInt64) (c : PerTraceCache) (root commit next : UInt64)
    (pages : List Bytes) : Bytes :=
  headerBytes root commit pageStoreFlags next ++ (storeRest (storeKeys keyOf c).length ++
    (pages.flatten ++ List.replicate (payloadPad c) 0))

theorem storeFront_append (chains : Bytes) :
    storeFront keyOf c root commit next pages ++ chains =
      headerBytes root commit pageStoreFlags next ++ (storeRest (storeKeys keyOf c).length ++
        (pages.flatten ++ (List.replicate (payloadPad c) 0 ++ chains))) := by
  rw [storeFront]
  simp only [List.append_assoc]

theorem payloadPad_add (c : PerTraceCache) : (payloadPad c + payloadBytes c) % nsPageSize = 0 := by
  rw [payloadPad, nsPageSize]
  omega

variable (hlayout : Layout pageStoreDescSize
    (chainEntries keyOf c (storeKeys keyOf c) (payloadStart keyOf c)) root commit next pages)
  (hstart : (pages.length + 1) * nsPageSize + payloadPad c = payloadStart keyOf c)

include hlayout hstart

theorem length_storeFront :
    (storeFront keyOf c root commit next pages).length = payloadStart keyOf c := by
  have hrest := length_storeRest (storeKeys keyOf c).length
  rw [storeFront, List.length_append, List.length_append, List.length_append, length_headerBytes,
    List.length_replicate, length_flatten_of_forall hlayout.pageLength, ← hstart, Nat.succ_mul]
  omega

variable (hc : WellFiled hashPage c) (hfits : payloadBytes c ≤ maxAlloc)

include hc hfits

theorem length_stream_lt : (storeFront keyOf c root commit next pages ++
    (storeKeys keyOf c).flatMap (chainBytes keyOf c)).length < 2 ^ 64 := by
  have hbase : payloadStart keyOf c ≤ 2 ^ 46 := payloadStart_le (hc.length_lt hfits)
  rw [List.length_append, length_storeFront hlayout hstart, length_chains]
  rw [maxAlloc] at hfits
  omega

theorem decode_stream :
    decodePageStoreKeyed hashPage keyOf (storeFront keyOf c root commit next pages ++
        (storeKeys keyOf c).flatMap (chainBytes keyOf c)) =
      .ok (insertAll ((storeKeys keyOf c).flatMap (chainPages keyOf c)) ∅) := by
  have hcount : (storeKeys keyOf c).length < 2 ^ 32 :=
    lt_of_le_of_lt (length_storeKeys_le keyOf c) (hc.length_lt hfits)
  have hentries := congrArg List.length
    (map_fst_chainEntries keyOf c (storeKeys keyOf c) (payloadStart keyOf c))
  rw [List.length_map] at hentries
  have hfold := decodeEntries_ok hc (fun _ h => h) (length_stream_lt hlayout hstart hc hfits) ∅
  rw [length_storeFront hlayout hstart] at hfold
  rw [storeFront_append] at hfold ⊢
  rw [decodePageStoreKeyed_append _ _ _ hcount, collectStore_ok hlayout, ok_bind,
    if_neg (not_not.mpr hentries)]
  · exact hfold
  · rw [List.length_append, List.length_replicate, length_chains, payloadPad_add]

theorem decode_stream_take {n : Nat} (hn : n < (storeFront keyOf c root commit next pages ++
      (storeKeys keyOf c).flatMap (chainBytes keyOf c)).length) :
    (∃ e, decodePageStoreKeyed hashPage keyOf ((storeFront keyOf c root commit next pages ++
      (storeKeys keyOf c).flatMap (chainBytes keyOf c)).take n) = .error (.error e)) ∨
    decodePageStoreKeyed hashPage keyOf ((storeFront keyOf c root commit next pages ++
      (storeKeys keyOf c).flatMap (chainBytes keyOf c)).take n) = .ok ∅ := by
  have hcount : (storeKeys keyOf c).length < 2 ^ 32 :=
    lt_of_le_of_lt (length_storeKeys_le keyOf c) (hc.length_lt hfits)
  have htotal := List.length_take_of_le (Nat.le_of_lt hn)
  rcases Nat.eq_zero_or_pos n with rfl | hpos
  · right
    rw [List.take_zero, decodePageStoreKeyed, if_pos List.length_nil]
    rfl
  left
  rcases Nat.lt_or_ge n nsPageSize with hshort | hpage
  · rw [decodePageStoreKeyed, htotal, if_neg (by omega), if_pos hshort]
    exact ⟨_, rfl⟩
  -- the header page is whole
  have hrest := length_storeRest (storeKeys keyOf c).length
  have hlen := length_storeFront hlayout hstart
  have hsplit : (storeFront keyOf c root commit next pages ++
      (storeKeys keyOf c).flatMap (chainBytes keyOf c)).take n =
      headerBytes root commit pageStoreFlags next ++ (storeRest (storeKeys keyOf c).length ++
        (pages.flatten ++ (List.replicate (payloadPad c) 0 ++
          (storeKeys keyOf c).flatMap (chainBytes keyOf c))).take (n - nsPageSize)) := by
    have hskip : n - nsHeaderTotal - (storeRest (storeKeys keyOf c).length).length =
        n - nsPageSize := by omega
    rw [storeFront_append, List.take_append, List.take_append, length_headerBytes,
      List.take_of_length_le (by rw [length_headerBytes]; omega),
      List.take_of_length_le (by omega), hskip]
  have hmore : nsPageSize + ((pages.flatten ++ (List.replicate (payloadPad c) 0 ++
      (storeKeys keyOf c).flatMap (chainBytes keyOf c))).take (n - nsPageSize)).length = n := by
    have := congrArg List.length hsplit
    rw [htotal, List.length_append, List.length_append, length_headerBytes] at this
    omega
  rw [hsplit, decodePageStoreKeyed_append _ _ _ hcount]
  by_cases hcut : n % nsPageSize ≠ 0 ∨ n / nsPageSize < next.toNat
  · rw [← hmore] at hcut
    have hshort : ∃ e, collectStore (headerBytes root commit _ _ ++
        (storeRest (storeKeys keyOf c).length ++ _)) = .error (.error e) := collectStore_cut hcut
    obtain ⟨e, he⟩ := hshort
    rw [he]
    exact ⟨e, rfl⟩
  -- the namespace is whole, so the cut is in the padding or in the chains
  rw [not_or, not_not, not_lt, hlayout.next, Nat.le_div_iff_mul_le (by decide), Nat.succ_mul] at hcut
  have hpages : pages.flatten.length = pages.length * nsPageSize :=
    length_flatten_of_forall hlayout.pageLength
  have htail : (pages.flatten ++ (List.replicate (payloadPad c) 0 ++
      (storeKeys keyOf c).flatMap (chainBytes keyOf c))).take (n - nsPageSize) =
      pages.flatten ++ (List.replicate (payloadPad c) 0 ++ (storeKeys keyOf c).flatMap
        (chainBytes keyOf c)).take (n - nsPageSize - pages.length * nsPageSize) := by
    rw [List.take_append, List.take_of_length_le (by omega), hpages]
  have halign : ((List.replicate (payloadPad c) 0 ++ (storeKeys keyOf c).flatMap
      (chainBytes keyOf c)).take (n - nsPageSize - pages.length * nsPageSize)).length %
        nsPageSize = 0 := by
    rw [htail, List.length_append, hpages] at hmore
    rw [← hmore, ← Nat.add_assoc, Nat.add_comm _ (List.length _), Nat.add_comm nsPageSize,
      ← Nat.succ_mul, Nat.add_mul_mod_self_right] at hcut
    exact hcut.1
  have hentries := congrArg List.length
    (map_fst_chainEntries keyOf c (storeKeys keyOf c) (payloadStart keyOf c))
  rw [List.length_map] at hentries
  have hkeys : storeKeys keyOf c ≠ [] := by
    intro hnil
    have hzero := length_chains keyOf c
    rw [hnil, List.flatMap_nil, List.length_nil] at hzero
    rw [List.length_append, hlen, ← hstart, payloadPad, ← hzero, hnil, List.flatMap_nil,
      List.length_nil, Nat.succ_mul, Nat.zero_mod, Nat.sub_zero, Nat.mod_self] at hn
    omega
  obtain ⟨e, he⟩ := decodeEntries_cut hc (fun _ h => h) hkeys
    (length_stream_lt hlayout hstart hc hfits) hn ∅
  rw [hlen, hsplit] at he
  refine ⟨e, ?_⟩
  rw [htail] at he ⊢
  rw [collectStore_ok hlayout _ halign, ok_bind, if_neg (not_not.mpr hentries)]
  exact he

end Written

theorem exists_pageStore (hc : WellFiled hashPage c) (hfits : payloadBytes c ≤ maxAlloc) :
    ∃ image c', encodePageStoreKeyed keyOf c = .ok image ∧
      decodePageStoreKeyed hashPage keyOf image = .ok c' ∧ c'.toFinmap = c.toFinmap := by
  obtain ⟨root, commit, next, pages, hlayout, hstart, hencode⟩ := encodePageStoreKeyed_eq keyOf c
  rw [← storeFront_append] at hencode
  exact ⟨_, _, hencode, decode_stream hlayout hstart hc hfits, toFinmap_insertAll keyOf c⟩

/-- The page store is read back as the cache it was written from. It ends with a page, and a stream
that was cut short is reported or empty. -/
theorem pageStore_roundTrip (hc : WellFiled hashPage c) (hfits : payloadBytes c ≤ maxAlloc) :
    ∃ out, encodePageStoreKeyed keyOf c = .ok out ∧ out.length % nsPageSize = 0 ∧
      (c.entries ≠ [] → ∃ front, ∃ e ∈ c.entries, out = front ++ pageRecord e.1 e.2) ∧
      (∃ c', decodePageStoreKeyed hashPage keyOf out = .ok c' ∧ c'.toFinmap = c.toFinmap) ∧
      ∀ n < out.length, (∃ e, decodePageStoreKeyed hashPage keyOf (out.take n) = .error (.error e)) ∨
        decodePageStoreKeyed hashPage keyOf (out.take n) = .ok ∅ := by
  obtain ⟨root, commit, next, pages, hlayout, hstart, hencode⟩ := encodePageStoreKeyed_eq keyOf c
  rw [← storeFront_append] at hencode
  refine ⟨_, hencode, ?_, fun hne => ?_, ⟨_, decode_stream hlayout hstart hc hfits,
    toFinmap_insertAll keyOf c⟩, fun n hn => decode_stream_take hlayout hstart hc hfits hn⟩
  · rw [List.length_append, length_storeFront hlayout hstart, length_chains, ← hstart,
      Nat.add_assoc, Nat.mul_add_mod_self_right, payloadPad_add]
  · obtain ⟨front, e, he, hend⟩ := chains_end keyOf hne
    refine ⟨storeFront keyOf c root commit next pages ++ front, e, he, ?_⟩
    rw [hend, List.append_assoc]

/-- A hash that tells pages apart by their first bytes. -/
def firstByte (page : Bytes) : Uint128 := ⟨(page.head?.getD 0).toUInt64, 0⟩

/-- A cache of two pages, one of zeros and one of ones. -/
def twoPages : PerTraceCache where
  entries := [⟨⟨0, 0⟩, List.replicate pageSize 0⟩, ⟨⟨1, 0⟩, List.replicate pageSize 1⟩]
  nodupKeys := by simp [List.NodupKeys, List.keys]

theorem twoPages_wellFiled : WellFiled firstByte twoPages := by
  intro e he
  rcases List.mem_cons.mp he with rfl | he
  · exact ⟨List.length_replicate, rfl⟩
  · rw [List.mem_singleton.mp he]
    exact ⟨List.length_replicate, rfl⟩

theorem twoPages_fits : payloadBytes twoPages ≤ maxAlloc := by
  rw [twoPages_wellFiled.payloadBytes_eq, twoPages]
  decide

/-- The two pages have one key, and share a chain. -/
theorem pageStore_roundTrip_twoPages :
    ∃ out, encodePageStoreKeyed (fun _ => 7) twoPages = .ok out ∧
      out.length % nsPageSize = 0 ∧
      ∃ c', decodePageStoreKeyed firstByte (fun _ => 7) out = .ok c' ∧
        c'.toFinmap = twoPages.toFinmap := by
  obtain ⟨out, hencode, hsize, -, hdecode, -⟩ :=
    pageStore_roundTrip twoPages_wellFiled twoPages_fits
  exact ⟨out, hencode, hsize, hdecode⟩

end Read

end Wasmsnapshot
