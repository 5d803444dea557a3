import WasmRecorder.Wasmsnapshot.Container
import WasmRecorder.Wasmsnapshot.Nsb1Walk

/-!
# Where materialising a snapshot panics

A snapshot set is read from streams that may hold anything. Offsets and lengths are 64-bit words,
and a bound that is the sum of two of them can wrap.

* `materialiseMemory_panic_iff` — putting the regions of a memory together panics exactly if the
  first region that cannot be put there is one whose check wraps.
* `snapshot_safe_iff` — the same for a whole snapshot, with the places of its data in the streams.
-/

namespace Wasmsnapshot

open Checked LittleEndian Slice Fallible

/-! ### Namespaces and the page store -/

section Namespace

variable {image : Bytes} {pageCount : UInt64} {descSize : Nat}

theorem safe_byteAt {ε : Type} {b : Bytes} {off : Nat} (h : off < b.length) :
    Safe (byteAt b off : Except (Fault ε) UInt8) := by
  rw [byteAt_eq (List.getElem?_eq_getElem h)]
  exact safe_ok _

theorem nsReadHeader_safe (image : Bytes) : Safe (nsReadHeader image) := by
  rw [nsReadHeader]
  refine safe_ite (fun _ => safe_error _) fun hlen => safe_ite (fun _ => safe_error _) fun _ =>
    safe_ite (fun _ => safe_error _) fun _ => ?_
  rw [not_lt, nsHeaderTotal] at hlen
  refine (safe_uint64 (by rw [nsOffCommit0]; omega)).bind fun _ _ => ?_
  refine (safe_uint64 (by rw [nsOffCommit1]; omega)).bind fun _ _ => ?_
  refine (safe_uint64 (by rw [nsOffRoot0]; omega)).bind fun _ _ => ?_
  refine (safe_uint64 (by rw [nsOffRoot1]; omega)).bind fun _ _ => ?_
  refine (safe_byteAt (by rw [nsOffFlags]; omega)).bind fun _ _ => ?_
  refine (safe_uint64 (by rw [nsOffPageCount]; omega)).bind fun _ _ => ?_
  exact safe_ite (fun _ => safe_error _) fun _ => safe_ok _

theorem nsReadHeader_pageCount {h : NsHeader} (hread : nsReadHeader image = .ok h) :
    h.pageCount.toNat ≤ image.length / nsPageSize := by
  rw [nsReadHeader] at hread
  split at hread
  · cases hread
  split at hread
  · cases hread
  split at hread
  · cases hread
  obtain ⟨_, -, hread⟩ := bind_eq_ok.mp hread
  obtain ⟨_, -, hread⟩ := bind_eq_ok.mp hread
  obtain ⟨_, -, hread⟩ := bind_eq_ok.mp hread
  obtain ⟨_, -, hread⟩ := bind_eq_ok.mp hread
  obtain ⟨_, -, hread⟩ := bind_eq_ok.mp hread
  obtain ⟨count, -, hread⟩ := bind_eq_ok.mp hread
  split at hread
  · cases hread
  · next hle =>
    cases hread
    exact not_lt.mp hle

theorem nsReadNode_safe (hlen : pageCount.toNat ≤ image.length / nsPageSize)
    (seen : List UInt64) (page : UInt64) :
    Safe (nsReadNode image pageCount descSize seen page) := by
  rw [nsReadNode]
  refine safe_ite (fun _ => safe_error _) fun _ => safe_ite (fun _ => safe_error _) fun hrange =>
    safe_ite (fun _ => safe_error _) fun _ => ?_
  have hbase := pageBase_le hlen (not_le.mp hrange)
  rw [nsPageSize] at hbase
  refine (safe_byteAt (by omega)).bind fun _ _ => safe_ite (fun _ => safe_error _) fun _ => ?_
  refine (safe_uint16 (by omega)).bind fun _ _ => safe_ite (fun _ => safe_error _) fun _ => ?_
  exact safe_ite (fun _ => safe_error _) fun _ => safe_ok _

variable {n : NsNode}

theorem NsNode.Fits.key_safe (h : n.Fits image descSize) {i : Nat} (hi : i < n.count) :
    Safe (n.key image i) := by
  rw [h.key hi]
  exact safe_ok _

theorem NsNode.Fits.checkKeys_safe (h : n.Fits image descSize) {left i : Nat}
    (hi : left = 0 ∨ i + left < n.count) : Safe (checkKeys image n left (i + 1)) := by
  induction left generalizing i with
  | zero => exact safe_ok ()
  | succ left ih =>
    rw [checkKeys]
    refine (h.key_safe (by omega)).bind fun _ _ => (h.key_safe (by omega)).bind fun _ _ => ?_
    exact safe_ite (fun _ => safe_error _) fun _ => ih (by omega)

theorem NsNode.Fits.collectLeaf_safe (h : n.Fits image descSize) {left i : Nat}
    (hi : i + left ≤ n.count) (out : List NsEntry) :
    Safe (collectLeaf image descSize n left i out) := by
  induction left generalizing i out with
  | zero => exact safe_ok out
  | succ left ih =>
    have hrest : Safe (do
        let desc ← sub image (n.base + nsNodeHeaderBytes + n.count * 8 + i * descSize)
          (n.base + nsNodeHeaderBytes + n.count * 8 + (i + 1) * descSize)
        collectLeaf image descSize n left (i + 1)
          (out ++ [(u64At (pageAt image n.page) (nsNodeHeaderBytes + i * 8), desc)])) := by
      have hin := h.inside
      have hfit := h.payload.1
      have hmul : (i + 1) * descSize ≤ n.count * descSize := Nat.mul_le_mul_right _ (by omega)
      have hstep : i * descSize ≤ (i + 1) * descSize := Nat.mul_le_mul_right _ (Nat.le_succ i)
      rw [h.base]
      exact (safe_sub (by omega) (by omega)).bind fun desc _ => ih (by omega) _
    rw [collectLeaf, h.key (by omega), ok_bind]
    dsimp only
    split
    · exact safe_ite (fun _ => safe_error _) fun _ => hrest
    · exact hrest

theorem nsWalk_safe (hD : 8 ≤ descSize) (hlen : pageCount.toNat ≤ image.length / nsPageSize)
    (levels : Nat) (page : UInt64) (s : WalkState) :
    Safe (nsWalk image pageCount descSize levels page s) := by
  induction levels generalizing page s with
  | zero => exact safe_error _
  | succ levels ih =>
    obtain ⟨seen, out⟩ := s
    rw [nsWalk]
    refine (nsReadNode_safe hlen seen page).bind ?_
    rintro ⟨n, seen'⟩ hread
    obtain ⟨hrange, -, kind, -, -, hcount, heq⟩ := (nsReadNode_ok_iff hD hlen).mp hread
    cases heq
    have hfits : NsNode.Fits image descSize
        ⟨page, kind = nsKindLeaf, (u16At (pageAt image page) 2).toNat, pageBase page⟩ :=
      ⟨rfl, pageBase_le hlen hrange.2, payload_le hD hcount⟩
    refine (hfits.checkKeys_safe (by omega)).bind fun _ _ => safe_ite (fun _ => ?_) fun _ => ?_
    · exact (hfits.collectLeaf_safe (by omega) out).bind fun _ _ => safe_ok _
    · refine safe_foldlM (fun s i hi => Safe.bind (safe_uint64 ?_) fun child _ => ih child s) _
      have hin := hfits.inside
      have hfit := hfits.payload.2
      rw [List.mem_range] at hi
      dsimp only at hin hfit hi ⊢
      omega

theorem nsCollect_safe (hD : 8 ≤ descSize) (image : Bytes) : Safe (nsCollect image descSize) := by
  rw [nsCollect]
  refine (nsReadHeader_safe image).bind fun h hread => safe_ite (fun _ => safe_ok _) fun _ => ?_
  exact (nsWalk_safe hD (nsReadHeader_pageCount hread) _ _ _).bind fun _ _ => safe_ok _

/-- The width of the descriptors collected. -/
def Wide (descSize : Nat) (es : List NsEntry) : Prop := ∀ e ∈ es, e.2.length = descSize

theorem Wide.concat {es : List NsEntry} (h : Wide descSize es) {key : UInt64} {desc : Bytes}
    (hdesc : desc.length = descSize) : Wide descSize (es ++ [(key, desc)]) := by
  intro e he
  rcases List.mem_append.mp he with he | he
  · exact h e he
  · rw [List.mem_singleton.mp he]
    exact hdesc

theorem collectLeaf_wide {left i : Nat} {out out' : List NsEntry} (hout : Wide descSize out)
    (h : collectLeaf image descSize n left i out = .ok out') : Wide descSize out' := by
  induction left generalizing i out with
  | zero =>
    cases h
    exact hout
  | succ left ih =>
    rw [collectLeaf] at h
    obtain ⟨key, -, h⟩ := bind_eq_ok.mp h
    have hrest : (do
        let desc ← sub image (n.base + nsNodeHeaderBytes + n.count * 8 + i * descSize)
          (n.base + nsNodeHeaderBytes + n.count * 8 + (i + 1) * descSize)
        collectLeaf image descSize n left (i + 1) (out ++ [(key, desc)])) = .ok out' := by
      dsimp only at h
      split at h
      · split at h
        · cases h
        · exact h
      · exact h
    obtain ⟨desc, hdesc, hrest⟩ := bind_eq_ok.mp hrest
    refine ih (hout.concat ?_) hrest
    rw [length_of_sub_eq_ok hdesc, Nat.succ_mul]
    omega

theorem nsWalk_wide {levels : Nat} {page : UInt64} {s s' : WalkState} (hs : Wide descSize s.2)
    (h : nsWalk image pageCount descSize levels page s = .ok s') : Wide descSize s'.2 := by
  induction levels generalizing page s s' with
  | zero => cases h
  | succ levels ih =>
    obtain ⟨seen, out⟩ := s
    rw [nsWalk] at h
    obtain ⟨⟨n, seen'⟩, -, h⟩ := bind_eq_ok.mp h
    obtain ⟨_, -, h⟩ := bind_eq_ok.mp h
    split at h
    · obtain ⟨out', hleaf, h⟩ := bind_eq_ok.mp h
      cases h
      exact collectLeaf_wide hs hleaf
    · refine foldlM_preserves (s := (seen', out)) (fun s : WalkState => Wide descSize s.2)
        (fun s i s₁ hs h => ?_) hs h
      obtain ⟨child, -, h⟩ := bind_eq_ok.mp h
      exact ih hs h

theorem nsCollect_wide {es : List NsEntry} (h : nsCollect image descSize = .ok es) :
    Wide descSize es := by
  rw [nsCollect] at h
  obtain ⟨header, -, h⟩ := bind_eq_ok.mp h
  split at h
  · cases h
    exact fun e he => absurd he List.not_mem_nil
  · obtain ⟨s, hwalk, h⟩ := bind_eq_ok.mp h
    cases h
    exact nsWalk_wide (s := ([], [])) (fun e he => absurd he List.not_mem_nil) hwalk

end Namespace

section PageStore

variable (hashPage : Bytes → Uint128) (keyOf : Uint128 → UInt64)

theorem decodeChain_safe (key : UInt64) (n : Nat) (chain : Bytes) (c : PerTraceCache) :
    Safe (decodeChain hashPage keyOf key n chain c) := by
  induction hsize : chain.length using Nat.strong_induction_on generalizing n chain c with
  | _ size ih =>
    rw [decodeChain]
    refine safe_ite (fun _ => safe_ok _) fun _ => safe_ite (fun _ => safe_error _) fun hheader => ?_
    rw [not_lt, pageRecordHeaderSize] at hheader
    refine (safe_sub (Nat.zero_le _) (by omega)).bind fun _ _ =>
      (safe_uint32 (by omega)).bind fun pageBytes _ => safe_ite (fun _ => safe_error _) fun _ =>
      safe_ite (fun _ => safe_error _) fun hpage => ?_
    rw [not_lt] at hpage
    refine (safe_sub (Nat.le_add_right _ _) (by rw [pageRecordHeaderSize] at hpage ⊢; omega)).bind
      fun page _ => safe_ite (fun _ => safe_error _) fun _ => safe_ite (fun _ => safe_error _)
      fun _ => ?_
    exact ih _ (by rw [List.length_drop, pageRecordHeaderSize]; omega) _ _ _ rfl

theorem decodeEntry_safe (raw : Bytes) (c : PerTraceCache) {e : NsEntry}
    (he : e.2.length = pageStoreDescSize) : Safe (decodeEntry hashPage keyOf raw c e) := by
  rw [pageStoreDescSize, nsDescSizeTypeB] at he
  rw [decodeEntry]
  refine (safe_uint64 (by omega)).bind fun start _ => (safe_uint64 (by omega)).bind fun length _ =>
    safe_ite (fun _ => safe_error _) fun hrange => ?_
  rw [not_or, not_lt, not_lt, UInt64.le_iff_toNat_le] at hrange
  refine (safe_sub hrange.1 hrange.2).bind fun chain _ =>
    (decodeChain_safe hashPage keyOf _ _ _ _).bind fun _ _ => ?_
  exact safe_ite (fun _ => safe_error _) fun _ => safe_ok _

theorem collectStore_safe (raw : Bytes) : Safe (collectStore raw) := by
  have hsafe : Safe (nsCollect raw pageStoreDescSize) := nsCollect_safe (by decide) raw
  rw [collectStore]
  split
  · exact safe_ok _
  · next h => exact absurd h hsafe
  · exact safe_error _

theorem collectStore_wide {raw : Bytes} {es : List NsEntry} (h : collectStore raw = .ok es) :
    Wide pageStoreDescSize es := by
  rw [collectStore] at h
  split at h
  · next hes =>
    cases h
    exact nsCollect_wide hes
  · cases h
  · cases h

theorem decodePageStoreKeyed_safe (raw : Bytes) :
    Safe (decodePageStoreKeyed hashPage keyOf raw) := by
  rw [decodePageStoreKeyed]
  refine safe_ite (fun _ => safe_ok _) fun _ => safe_ite (fun _ => safe_error _) fun hlen =>
    safe_ite (fun _ => safe_error _) fun _ => ?_
  rw [not_lt, nsPageSize] at hlen
  refine (safe_sub (Nat.le_add_right _ _)
    (by rw [pageStoreSidecarOffset, pageStoreSidecarSize]; omega)).bind fun s hs => ?_
  have hs16 : s.length = 16 := by
    rw [length_of_sub_eq_ok hs, Nat.add_sub_cancel_left, pageStoreSidecarSize]
  refine safe_ite (fun _ => safe_error _) fun _ => ?_
  refine (safe_uint16 (by omega)).bind fun _ _ => (safe_uint32 (by omega)).bind fun _ _ =>
    (safe_uint32 (by omega)).bind fun _ _ =>
    (safe_byteAt (by rw [nsOffFlags]; omega)).bind fun _ _ => ?_
  refine safe_ite (fun _ => safe_error _) fun _ => safe_ite (fun _ => safe_error _) fun _ =>
    safe_ite (fun _ => safe_error _) fun _ => ?_
  refine (collectStore_safe raw).bind fun es hes => safe_ite (fun _ => safe_error _) fun _ => ?_
  exact safe_foldlM (fun c e he => decodeEntry_safe hashPage keyOf raw c
    (collectStore_wide hes e he)) _

end PageStore

/-! ### The other streams -/

theorem record_le {base size i n : Nat} (hi : i < n) :
    base + i * size + size ≤ base + n * size := by
  have := Nat.mul_le_mul_right size hi
  rw [Nat.succ_mul] at this
  omega

theorem decodeRecord_safe {raw : Bytes} {off : Nat} (h : off + indexRecordSize ≤ raw.length) :
    Safe (decodeRecord raw off) := by
  rw [indexRecordSize] at h
  rw [decodeRecord]
  refine (safe_sub (by omega) le_rfl).bind fun b hb => ?_
  have hlen := length_of_sub_eq_ok hb
  refine (safe_uint32 (by omega)).bind fun _ _ => (safe_uint32 (by omega)).bind fun _ _ =>
    (safe_uint32 (by omega)).bind fun _ _ => (safe_uint32 (by omega)).bind fun _ _ => ?_
  refine (safe_uint64 (by omega)).bind fun _ _ => (safe_uint64 (by omega)).bind fun _ _ =>
    (safe_uint64 (by omega)).bind fun _ _ => (safe_uint64 (by omega)).bind fun _ _ => ?_
  exact (safe_uint64 (by omega)).bind fun _ _ => (safe_uint64 (by omega)).bind fun _ _ =>
    (safe_uint64 (by omega)).bind fun _ _ => safe_ok _

theorem decodeIndex_safe (raw : Bytes) : Safe (decodeIndex raw) := by
  rw [decodeIndex]
  refine safe_ite (fun _ => safe_error _) fun hlen => ?_
  rw [not_lt, indexHeaderSize] at hlen
  refine (safe_sub (Nat.zero_le _) (by omega)).bind fun _ _ =>
    safe_ite (fun _ => safe_error _) fun _ => ?_
  refine (safe_uint16 (by omega)).bind fun _ _ => safe_ite (fun _ => safe_error _) fun _ => ?_
  refine (safe_uint32 (by omega)).bind fun _ _ => safe_ite (fun _ => safe_error _) fun _ => ?_
  refine (safe_sub (by decide) (by omega)).bind fun _ _ =>
    safe_ite (fun _ => safe_error _) fun _ => ?_
  refine (safe_uint32 (by omega)).bind fun n _ => safe_ite (fun _ => safe_error _) fun hn => ?_
  rw [not_not] at hn
  refine safe_mapM fun i hi => decodeRecord_safe ?_
  rw [← hn]
  exact record_le (List.mem_range.mp hi)

namespace RegionReader

/-- A computation of the layout's decoder that does not panic. -/
def Harmless {α : Type} (d : Decode α) : Prop := ∀ r, Safe (d r)

theorem need_safe (n : Nat) : Harmless (need n) := by
  intro r
  rw [need]
  refine safe_ite (fun _ => safe_ok _) fun _ => safe_ite (fun _ => safe_ok _) fun hlen => ?_
  exact (safe_sub (Nat.le_add_right _ _) (not_lt.mp hlen)).bind fun _ _ => safe_ok _

theorem length_of_need {n : Nat} {r r' : RegionReader} {s : Bytes} (h : need n r = .ok (s, r')) :
    s.length = n := by
  rw [need] at h
  split at h
  · cases h
    exact List.length_replicate
  split at h
  · cases h
    exact List.length_replicate
  obtain ⟨s', hs, h⟩ := bind_eq_ok.mp h
  cases h
  rw [length_of_sub_eq_ok hs, Nat.add_sub_cancel_left]

theorem u32_safe : Harmless u32 := fun r =>
  (need_safe 4 r).bind fun s hs =>
    (safe_uint32 (by have := length_of_need hs; omega)).bind fun _ _ => safe_ok _

theorem u64_safe : Harmless u64 := fun r =>
  (need_safe 8 r).bind fun s hs =>
    (safe_uint64 (by have := length_of_need hs; omega)).bind fun _ _ => safe_ok _

theorem failed_safe (r : RegionReader) : Safe r.failed := by
  rw [failed]
  split
  · exact safe_error _
  · exact safe_ok _

theorem hashList_safe (n : Nat) : Harmless (hashList n) := by
  induction n with
  | zero => exact fun r => safe_ok _
  | succ n ih =>
    exact fun r => (need_safe 16 r).bind fun s _ => (ih s.2).bind fun _ _ => safe_ok _

theorem countedHashes_safe : Harmless countedHashes := by
  intro r
  refine (u32_safe r).bind fun s _ => (failed_safe s.2).bind fun _ _ => ?_
  refine safe_ite (fun _ => safe_error _) fun _ => ?_
  exact (hashList_safe _ _).bind fun _ _ => (failed_safe _).bind fun _ _ => safe_ok _

theorem runList_safe (n : Nat) : Harmless (runList n) := by
  induction n with
  | zero => exact fun r => safe_ok _
  | succ n ih =>
    exact fun r => (u64_safe r).bind fun s _ => (countedHashes_safe s.2).bind fun s _ =>
      (ih s.2).bind fun _ _ => safe_ok _

end RegionReader

open RegionReader in
theorem decodeKind_safe (i : Nat) (kind : UInt8) : Harmless (decodeKind i kind) := by
  intro r
  rw [decodeKind]
  refine safe_ite (fun _ => ?_) fun _ => safe_ite (fun _ => ?_) fun _ => safe_ite (fun _ => ?_)
    fun _ => safe_error _
  · exact (u64_safe r).bind fun _ _ => safe_ok _
  · exact (countedHashes_safe r).bind fun _ _ => safe_ok _
  · refine (u32_safe r).bind fun s _ => (failed_safe s.2).bind fun _ _ => ?_
    exact safe_ite (fun _ => safe_error _) fun _ => (runList_safe _ _).bind fun _ _ => safe_ok _

open RegionReader in
theorem decodeRegion_safe (i : Nat) : Harmless (decodeRegion i) := by
  intro r
  refine (u64_safe r).bind fun s _ => (u64_safe s.2).bind fun s _ => (u32_safe s.2).bind fun s _ =>
    (u32_safe s.2).bind fun s _ => (need_safe 4 s.2).bind fun kb hkb => ?_
  have hlen := length_of_need hkb
  refine (safe_byteAt (by omega)).bind fun _ _ => (safe_byteAt (by omega)).bind fun _ _ =>
    (safe_byteAt (by omega)).bind fun _ _ => safe_ite (fun _ => safe_error _) fun _ => ?_
  refine (failed_safe _).bind fun _ _ => (safe_byteAt (by omega)).bind fun kind _ => ?_
  exact (decodeKind_safe i kind _).bind fun s _ => (failed_safe s.2).bind fun _ _ => safe_ok _

theorem decodeRegionList_safe (i n : Nat) : RegionReader.Harmless (decodeRegionList i n) := by
  induction n generalizing i with
  | zero => exact fun r => safe_ok _
  | succ n ih =>
    exact fun r => (decodeRegion_safe i r).bind fun s _ => (ih (i + 1) s.2).bind fun _ _ => safe_ok _

theorem decodeRegions_safe (raw : Bytes) : Safe (decodeRegions raw) := by
  rw [decodeRegions]
  refine safe_ite (fun _ => safe_ok _) fun _ => ?_
  refine (RegionReader.u32_safe _).bind fun s _ => (RegionReader.failed_safe s.2).bind fun _ _ => ?_
  refine safe_ite (fun _ => safe_error _) fun _ => ?_
  exact (decodeRegionList_safe 0 _ s.2).bind fun _ _ => safe_ok _

theorem decodeGlobals_safe (raw : Bytes) : Safe (decodeGlobals raw) := by
  rw [decodeGlobals]
  refine safe_ite (fun _ => safe_ok _) fun _ => safe_ite (fun _ => safe_error _) fun hlen => ?_
  refine (safe_uint32 (by omega)).bind fun n _ => safe_ite (fun _ => safe_error _) fun hn => ?_
  rw [not_not] at hn
  refine safe_mapM fun i hi => ?_
  have hrecord : 4 + i * globalRecordSize + globalRecordSize ≤ 4 + n.toNat * globalRecordSize :=
    record_le (List.mem_range.mp hi)
  rw [hn, globalRecordSize] at hrecord
  rw [decodeGlobal, globalRecordSize]
  refine (safe_sub (by omega) le_rfl).bind fun b hb => ?_
  have hb := length_of_sub_eq_ok hb
  exact (safe_byteAt (by omega)).bind fun _ _ => (safe_byteAt (by omega)).bind fun _ _ =>
    (safe_uint64 (by omega)).bind fun _ _ => (safe_uint64 (by omega)).bind fun _ _ => safe_ok _

theorem decodeTableList_safe (raw : Bytes) (i n off : Nat) :
    Safe (decodeTableList raw i n off) := by
  induction n generalizing i off with
  | zero => exact safe_ok _
  | succ n ih =>
    rw [decodeTableList]
    refine safe_ite (fun _ => safe_error _) fun hlen => ?_
    refine (safe_byteAt (by omega)).bind fun _ _ => (safe_uint32 (by omega)).bind fun count _ => ?_
    refine safe_ite (fun _ => safe_error _) fun hcount => Safe.bind (safe_mapM fun j hj => ?_)
      fun _ _ => (ih (i + 1) _).bind fun _ _ => safe_ok _
    have := List.mem_range.mp hj
    exact safe_uint32 (by omega)

theorem decodeTables_safe (raw : Bytes) : Safe (decodeTables raw) := by
  rw [decodeTables]
  refine safe_ite (fun _ => safe_ok _) fun _ => safe_ite (fun _ => safe_error _) fun hlen => ?_
  refine (safe_uint32 (by omega)).bind fun n _ => (decodeTableList_safe raw 0 _ 4).bind fun s _ => ?_
  exact safe_ite (fun _ => safe_error _) fun _ => safe_ok _

/-! ### Memories -/

/-- The pages a region refers to. -/
def RegionKind.hashes : RegionKind → List Uint128
  | .full _ => []
  | .hashRef hashes => hashes
  | .runHashRef runs => runs.flatMap HashRun.hashes

section Memory

variable (hashPage : Bytes → Uint128)

/-- Some tier holds a whole page under a hash. -/
def Tiers.Holds (t : Tiers) (h : Uint128) : Prop :=
  ∃ page cacheID, t.lookup hashPage h = some (page, cacheID) ∧ page.length = pageSize

/-- The sum of an offset and a length does not fit, and what is left of it is within bounds. -/
def SumWraps (off length : UInt64) (bound : Nat) : Prop :=
  2 ^ 64 ≤ off.toNat + length.toNat ∧ (off + length).toNat ≤ bound

/-- The sum of an offset and a length fits and is within bounds. -/
def SumFits (off length : UInt64) (bound : Nat) : Prop :=
  off.toNat + length.toNat < 2 ^ 64 ∧ (off + length).toNat ≤ bound

variable {hashPage} {t : Tiers} {out out' : Bytes} {cacheID at_ : UInt64} {hashes : List Uint128}

theorem toNat_add_of_lt {a b : UInt64} (h : a.toNat + b.toNat < 2 ^ 64) :
    (a + b).toNat = a.toNat + b.toNat := by
  rw [UInt64.toNat_add, Nat.mod_eq_of_lt h]

theorem toNat_add_of_le {a b : UInt64} (h : 2 ^ 64 ≤ a.toNat + b.toNat) :
    (a + b).toNat = a.toNat + b.toNat - 2 ^ 64 := by
  have ha := a.toNat_lt
  have hb := b.toNat_lt
  rw [UInt64.toNat_add, Nat.mod_eq_sub_mod h, Nat.mod_eq_of_lt (by omega)]

theorem toNat_pageSize : (UInt64.ofNat pageSize).toNat = pageSize := rfl

theorem toNat_nextPage {size : Nat} (hin : at_.toNat + pageSize ≤ size) (hsize : size ≤ maxAlloc) :
    (at_ + UInt64.ofNat pageSize).toNat = at_.toNat + pageSize := by
  rw [maxAlloc] at hsize
  rw [toNat_add_of_lt (by rw [toNat_pageSize]; omega), toNat_pageSize]

theorem page_cases (at_ : UInt64) (size : Nat) :
    at_.toNat + pageSize ≤ size ∨ SumWraps at_ (UInt64.ofNat pageSize) size ∨
      size < (at_ + UInt64.ofNat pageSize).toNat := by
  by_cases hwrap : 2 ^ 64 ≤ at_.toNat + pageSize
  · rcases Nat.lt_or_ge size (at_ + UInt64.ofNat pageSize).toNat with hpast | hin
    · exact .inr (.inr hpast)
    · exact .inr (.inl ⟨hwrap, hin⟩)
  · rw [toNat_add_of_lt (by rw [toNat_pageSize]; omega), toNat_pageSize]
    omega

theorem SumWraps.not_inside {size : Nat} (h : SumWraps at_ (UInt64.ofNat pageSize) size)
    (hsize : size ≤ maxAlloc) : ¬ at_.toNat + pageSize ≤ size := by
  have := h.1
  rw [toNat_pageSize] at this
  rw [maxAlloc] at hsize
  omega

theorem SumWraps.not_nextPage {size : Nat}
    (h : SumWraps (at_ + UInt64.ofNat pageSize) (UInt64.ofNat pageSize) size)
    (hsize : size ≤ maxAlloc) : ¬ at_.toNat + pageSize ≤ size := by
  intro hin
  have hwraps := h.1
  rw [toNat_nextPage hin hsize, toNat_pageSize] at hwraps
  rw [maxAlloc] at hsize
  rw [pageSize] at hwraps hin
  omega

theorem SumWraps.sub_eq {ε α : Type} {off length : UInt64} {bound : Nat}
    (h : SumWraps off length bound) (b : List α) :
    (sub b off.toNat (off + length).toNat : Except (Fault ε) (List α)) = .error .panic := by
  have hlt : (off + length).toNat < off.toNat := by
    have := length.toNat_lt
    rw [toNat_add_of_le h.1]
    have := h.1
    omega
  rw [sub, if_neg (by omega)]

section Page

variable (cacheID at_ : UInt64) (h : Uint128) (hashes : List Uint128) (out : Bytes)

theorem writePages_missing (hh : ¬ t.Holds hashPage h) :
    ∃ e, writePages hashPage t cacheID at_ (h :: hashes) out = .error (.error e) := by
  rw [writePages]
  split
  · exact ⟨_, rfl⟩
  · next page id hpage =>
    have hsize : page.length ≠ pageSize := fun hsize => hh ⟨page, id, hpage, hsize⟩
    exact ⟨_, if_pos hsize⟩

theorem writePages_past (hh : t.Holds hashPage h)
    (hpast : out.length < (at_ + UInt64.ofNat pageSize).toNat) :
    writePages hashPage t cacheID at_ (h :: hashes) out = .error (.error .runPastEnd) := by
  obtain ⟨page, id, hpage, hsize⟩ := hh
  rw [writePages, hpage]
  dsimp only
  rw [if_neg (not_not.mpr hsize), if_pos hpast]

theorem writePages_wraps (hh : t.Holds hashPage h)
    (hwraps : SumWraps at_ (UInt64.ofNat pageSize) out.length) :
    writePages hashPage t cacheID at_ (h :: hashes) out = .error .panic := by
  obtain ⟨page, id, hpage, hsize⟩ := hh
  rw [writePages, hpage]
  dsimp only
  rw [if_neg (not_not.mpr hsize), if_neg (not_lt.mpr hwraps.2), hwraps.sub_eq]
  rfl

theorem writePages_inside (hh : t.Holds hashPage h) (hin : at_.toNat + pageSize ≤ out.length)
    (hsize : out.length ≤ maxAlloc) :
    ∃ out₁ : Bytes, out₁.length = out.length ∧
      writePages hashPage t cacheID at_ (h :: hashes) out =
        writePages hashPage t cacheID (at_ + UInt64.ofNat pageSize) hashes out₁ := by
  obtain ⟨page, id, hpage, hpageSize⟩ := hh
  have hnext := toNat_nextPage hin hsize
  refine ⟨out.take at_.toNat ++ page ++ out.drop (at_.toNat + page.length), ?_, ?_⟩
  · rw [List.length_append, List.length_append, List.length_take, List.length_drop]
    omega
  · rw [writePages, hpage]
    dsimp only
    rw [if_neg (not_not.mpr hpageSize), if_neg (by omega), sub_eq (by omega) (by omega), ok_bind,
      put_eq (by omega), ok_bind]

/-- What becomes of the first page of a run: it is not held; it is inside the memory; it is at a
place where the check wraps; or it is past the end. -/
theorem writePages_cases (hsize : out.length ≤ maxAlloc) :
    (¬ t.Holds hashPage h ∧
      ∃ e, writePages hashPage t cacheID at_ (h :: hashes) out = .error (.error e)) ∨
    t.Holds hashPage h ∧
      ((at_.toNat + pageSize ≤ out.length ∧ ∃ out₁ : Bytes, out₁.length = out.length ∧
        writePages hashPage t cacheID at_ (h :: hashes) out =
          writePages hashPage t cacheID (at_ + UInt64.ofNat pageSize) hashes out₁) ∨
      (SumWraps at_ (UInt64.ofNat pageSize) out.length ∧
        writePages hashPage t cacheID at_ (h :: hashes) out = .error .panic) ∨
      (out.length < (at_ + UInt64.ofNat pageSize).toNat ∧
        writePages hashPage t cacheID at_ (h :: hashes) out = .error (.error .runPastEnd))) := by
  by_cases hh : t.Holds hashPage h
  · refine .inr ⟨hh, ?_⟩
    rcases page_cases at_ out.length with hin | hwraps | hpast
    · exact .inl ⟨hin, writePages_inside cacheID at_ h hashes out hh hin hsize⟩
    · exact .inr (.inl ⟨hwraps, writePages_wraps cacheID at_ h hashes out hh hwraps⟩)
    · exact .inr (.inr ⟨hpast, writePages_past cacheID at_ h hashes out hh hpast⟩)
  · exact .inl ⟨hh, writePages_missing cacheID at_ h hashes out hh⟩

end Page

variable (cacheID) in
/-- Only the first page of a run can be at such a place: a page behind another one starts inside
the memory. -/
theorem writePages_panic_iff (hsize : out.length ≤ maxAlloc) :
    writePages hashPage t cacheID at_ hashes out = .error .panic ↔
      ∃ h ∈ hashes.head?, t.Holds hashPage h ∧
        SumWraps at_ (UInt64.ofNat pageSize) out.length := by
  induction hashes generalizing at_ out with
  | nil => exact ⟨nofun, fun ⟨_, h, _⟩ => (by cases h)⟩
  | cons h hashes ih =>
    simp only [List.head?_cons, Option.mem_some_iff, exists_eq_left']
    rcases writePages_cases cacheID at_ h hashes out hsize with ⟨hh, e, he⟩ |
      ⟨hh, ⟨hin, out₁, hlen, hstep⟩ | ⟨hwraps, hpanic⟩ | ⟨hpast, herr⟩⟩
    · rw [he]
      exact ⟨nofun, fun hwraps => absurd hwraps.1 hh⟩
    · rw [hstep, ih (by omega), hlen]
      constructor
      · rintro ⟨h', -, -, hwraps⟩
        exact absurd hin (hwraps.not_nextPage hsize)
      · exact fun hwraps => absurd hin (hwraps.2.not_inside hsize)
    · exact ⟨fun _ => ⟨hh, hwraps⟩, fun _ => hpanic⟩
    · rw [herr]
      exact ⟨nofun, fun hwraps => absurd hpast (not_lt.mpr hwraps.2.2)⟩

variable (cacheID) in
theorem writePages_ok_iff (hsize : out.length ≤ maxAlloc) :
    (∃ out', writePages hashPage t cacheID at_ hashes out = .ok out') ↔
      (∀ h ∈ hashes, t.Holds hashPage h) ∧
        (hashes ≠ [] → at_.toNat + hashes.length * pageSize ≤ out.length) := by
  induction hashes generalizing at_ out with
  | nil => exact ⟨fun _ => ⟨nofun, fun h => absurd rfl h⟩, fun _ => ⟨out, rfl⟩⟩
  | cons h hashes ih =>
    rw [List.forall_mem_cons, List.length_cons, Nat.succ_mul]
    have hinside : (h :: hashes ≠ [] → at_.toNat + (hashes.length * pageSize + pageSize) ≤
        out.length) → at_.toNat + pageSize ≤ out.length := fun hend => by
      have := hend (List.cons_ne_nil _ _)
      omega
    rcases writePages_cases cacheID at_ h hashes out hsize with ⟨hh, e, he⟩ |
      ⟨hh, ⟨hin, out₁, hlen, hstep⟩ | ⟨hwraps, hpanic⟩ | ⟨hpast, herr⟩⟩
    · rw [he]
      exact ⟨fun ⟨_, h⟩ => (by cases h), fun ⟨hall, _⟩ => absurd hall.1 hh⟩
    · rw [hstep, ih (by omega), hlen, toNat_nextPage hin hsize]
      constructor
      · rintro ⟨hrest, hend⟩
        refine ⟨⟨hh, hrest⟩, fun _ => ?_⟩
        cases hashes with
        | nil =>
          rw [List.length_nil]
          omega
        | cons h' hashes =>
          have := hend (List.cons_ne_nil _ _)
          omega
      · rintro ⟨⟨-, hrest⟩, hend⟩
        have := hend (List.cons_ne_nil _ _)
        exact ⟨hrest, fun _ => by omega⟩
    · rw [hpanic]
      exact ⟨fun ⟨_, h⟩ => (by cases h), fun ⟨_, hend⟩ =>
        absurd (hinside hend) (hwraps.not_inside hsize)⟩
    · rw [herr]
      refine ⟨fun ⟨_, h⟩ => (by cases h), fun ⟨_, hend⟩ => absurd hpast (not_lt.mpr ?_)⟩
      rw [toNat_nextPage (hinside hend) hsize]
      exact hinside hend

theorem length_writePages (hsize : out.length ≤ maxAlloc)
    (h : writePages hashPage t cacheID at_ hashes out = .ok out') : out'.length = out.length := by
  induction hashes generalizing at_ out with
  | nil =>
    cases h
    rfl
  | cons hash hashes ih =>
    rcases writePages_cases cacheID at_ hash hashes out hsize with ⟨-, e, he⟩ |
      ⟨-, ⟨-, out₁, hlen, hstep⟩ | ⟨-, hpanic⟩ | ⟨-, herr⟩⟩
    · cases he.symm.trans h
    · rw [hstep] at h
      rw [ih (by omega) h, hlen]
    · cases hpanic.symm.trans h
    · cases herr.symm.trans h

/-! The tier a run names matters to error reports only. -/

theorem writePages_cacheID (cacheID' : UInt64) :
    mapFault (fun _ => ()) (writePages hashPage t cacheID at_ hashes out) =
      mapFault (fun _ => ()) (writePages hashPage t cacheID' at_ hashes out) := by
  induction hashes generalizing at_ out with
  | nil => rfl
  | cons h hashes ih =>
    rw [writePages, writePages]
    split
    · rfl
    · dsimp only
      split
      · rfl
      split
      · rfl
      simp only [mapFault_bind, ih]

theorem zero_pages : UInt64.ofNat 0 * UInt64.ofNat pageSize = 0 := rfl

theorem writePages_append (more : List Uint128) :
    writePages hashPage t cacheID at_ (hashes ++ more) out =
      writePages hashPage t cacheID at_ hashes out >>= writePages hashPage t cacheID
        (at_ + UInt64.ofNat hashes.length * UInt64.ofNat pageSize) more := by
  induction hashes generalizing at_ out with
  | nil =>
    rw [List.length_nil, zero_pages, UInt64.add_zero]
    rfl
  | cons h hashes ih =>
    have hnext : at_ + UInt64.ofNat (h :: hashes).length * UInt64.ofNat pageSize =
        at_ + UInt64.ofNat pageSize + UInt64.ofNat hashes.length * UInt64.ofNat pageSize := by
      rw [List.length_cons, UInt64.ofNat_add, UInt64.add_mul, UInt64.add_assoc,
        UInt64.add_comm (UInt64.ofNat pageSize)]
      exact congrArg _ (congrArg _ (UInt64.one_mul _))
    rw [hnext, List.cons_append, writePages, writePages]
    split
    · rfl
    · dsimp only
      split
      · rfl
      split
      · rfl
      rw [bind_assoc]
      refine congrArg _ (funext fun _ => ?_)
      rw [bind_assoc]
      exact congrArg _ (funext fun out₁ => ih)

variable (cacheID) in
theorem writeRuns_eq (runs : List HashRun) (covered : UInt64) :
    mapFault (fun _ => ()) (writeRuns hashPage t at_ runs (out, covered)) =
      mapFault (fun _ => ()) (writePages hashPage t cacheID at_ (runs.flatMap HashRun.hashes) out >>=
        fun out' => .ok (out', covered +
          UInt64.ofNat (runs.flatMap HashRun.hashes).length * UInt64.ofNat pageSize)) := by
  induction runs generalizing at_ out covered with
  | nil =>
    rw [List.flatMap_nil, List.length_nil, zero_pages, UInt64.add_zero]
    rfl
  | cons run runs ih =>
    rw [writeRuns, List.flatMap_cons, writePages_append, bind_assoc, mapFault_bind, mapFault_bind,
      writePages_cacheID cacheID]
    refine congrArg _ (funext fun out₁ => ?_)
    rw [ih, List.length_append, UInt64.ofNat_add, UInt64.add_mul, UInt64.add_assoc]

/-! ### Regions -/

/-- How much of a memory a region describes. -/
def Region.covers (r : Region) : UInt64 :=
  match r.kind with
  | .full _ => r.size
  | kind => UInt64.ofNat kind.hashes.length * UInt64.ofNat pageSize

variable (hashPage) in
/-- A region that can be put into a memory of `size` bytes. -/
def Region.Fits (inline : Bytes) (t : Tiers) (size : Nat) (r : Region) : Prop :=
  (r.base + r.size).toNat ≤ size ∧ match r.kind with
    | .full fileOffset => SumFits r.base r.size size ∧ SumFits fileOffset r.size inline.length
    | kind => (∀ h ∈ kind.hashes, t.Holds hashPage h) ∧
        (kind.hashes ≠ [] → r.base.toNat + kind.hashes.length * pageSize ≤ size)

variable (hashPage) in
/-- A region whose bounds are checked with a sum that wraps: the place of an inline region, in the
memory or in the stream, or the place of the first page of a run. -/
def Region.Wraps (inline : Bytes) (t : Tiers) (size : Nat) (r : Region) : Prop :=
  (r.base + r.size).toNat ≤ size ∧ match r.kind with
    | .full fileOffset => (fileOffset + r.size).toNat ≤ inline.length ∧
        (2 ^ 64 ≤ r.base.toNat + r.size.toNat ∨ 2 ^ 64 ≤ fileOffset.toNat + r.size.toNat)
    | kind => ∃ h ∈ kind.hashes.head?, t.Holds hashPage h ∧
        SumWraps r.base (UInt64.ofNat pageSize) size

/-- What is known about a step that puts a region into a memory. -/
structure RegionStep (x : Except (Fault PageError) (Bytes × UInt64)) (fits wraps : Prop)
    (length : Nat) (covered : UInt64) : Prop where
  panic : x = .error .panic ↔ wraps
  ok : (∃ s, x = .ok s) ↔ fits
  length : ∀ s, x = .ok s → s.1.length = length ∧ s.2 = covered

theorem writePages_step (hsize : out.length ≤ maxAlloc) (covered : UInt64) :
    RegionStep (writePages hashPage t cacheID at_ hashes out >>= fun out' => .ok (out', covered))
      ((∀ h ∈ hashes, t.Holds hashPage h) ∧
        (hashes ≠ [] → at_.toNat + hashes.length * pageSize ≤ out.length))
      (∃ h ∈ hashes.head?, t.Holds hashPage h ∧ SumWraps at_ (UInt64.ofNat pageSize) out.length)
      out.length covered where
  panic := by
    rw [bind_eq_panic, ← writePages_panic_iff cacheID hsize]
    exact ⟨fun h => h.elim id fun ⟨_, _, h⟩ => (by cases h), .inl⟩
  ok := by
    rw [← writePages_ok_iff cacheID hsize]
    constructor
    · rintro ⟨s, h⟩
      obtain ⟨out', hout', -⟩ := bind_eq_ok.mp h
      exact ⟨out', hout'⟩
    · rintro ⟨out', hout'⟩
      exact ⟨(out', covered), bind_eq_ok.mpr ⟨out', hout', rfl⟩⟩
  length := by
    intro s h
    obtain ⟨out', hout', h⟩ := bind_eq_ok.mp h
    cases h
    exact ⟨length_writePages hsize hout', rfl⟩

theorem RegionStep.congr {x y : Except (Fault PageError) (Bytes × UInt64)} {fits wraps : Prop}
    {length : Nat} {covered : UInt64} (h : RegionStep x fits wraps length covered)
    (hxy : mapFault (fun _ => ()) y = mapFault (fun _ => ()) x) :
    RegionStep y fits wraps length covered where
  panic := by rw [← mapFault_eq_panic, hxy, mapFault_eq_panic, h.panic]
  ok := by
    rw [← h.ok]
    exact exists_congr fun s => by rw [← mapFault_eq_ok, hxy, mapFault_eq_ok]
  length := by
    intro s hs
    rw [← mapFault_eq_ok (f := fun _ => ()), hxy, mapFault_eq_ok] at hs
    exact h.length s hs

variable {inline : Bytes} {size covered : UInt64} {r : Region}

theorem not_size_lt (hbounds : (r.base + r.size).toNat ≤ size.toNat) :
    ¬ size < r.base + r.size := not_lt.mpr (UInt64.le_iff_toNat_le.mpr hbounds)

theorem writeRegion_full {fileOffset : UInt64} (hkind : r.kind = .full fileOffset)
    (hout : out.length = size.toNat) (hbounds : (r.base + r.size).toNat ≤ size.toNat) :
    RegionStep (writeRegion hashPage inline t size (out, covered) r)
      (SumFits r.base r.size size.toNat ∧ SumFits fileOffset r.size inline.length)
      ((fileOffset + r.size).toNat ≤ inline.length ∧
        (2 ^ 64 ≤ r.base.toNat + r.size.toNat ∨ 2 ^ 64 ≤ fileOffset.toNat + r.size.toNat))
      size.toNat (covered + r.size) := by
  rw [writeRegion, if_neg (not_size_lt hbounds), hkind]
  dsimp only
  by_cases hend : (fileOffset + r.size).toNat ≤ inline.length
  · rw [if_neg (not_lt.mpr hend)]
    by_cases hbase : 2 ^ 64 ≤ r.base.toNat + r.size.toNat
    · have hwraps : SumWraps r.base r.size size.toNat := ⟨hbase, hbounds⟩
      rw [hwraps.sub_eq]
      exact ⟨⟨fun _ => ⟨hend, .inl hbase⟩, fun _ => rfl⟩,
        ⟨fun ⟨_, h⟩ => (by cases h), fun h => absurd h.1.1 (not_lt.mpr hbase)⟩,
        nofun⟩
    have hsum := toNat_add_of_lt (not_le.mp hbase)
    rw [sub_eq (by omega) (by omega), ok_bind]
    by_cases hoff : 2 ^ 64 ≤ fileOffset.toNat + r.size.toNat
    · have hwraps : SumWraps fileOffset r.size inline.length := ⟨hoff, hend⟩
      rw [hwraps.sub_eq]
      exact ⟨⟨fun _ => ⟨hend, .inr hoff⟩, fun _ => rfl⟩,
        ⟨fun ⟨_, h⟩ => (by cases h), fun h => absurd h.2.1 (not_lt.mpr hoff)⟩,
        nofun⟩
    have hstop := toNat_add_of_lt (not_le.mp hoff)
    have hlen : (slice inline fileOffset.toNat (fileOffset + r.size).toNat).length =
        r.size.toNat := by
      rw [length_slice hend, hstop, Nat.add_sub_cancel_left]
    rw [sub_eq (by omega) hend, ok_bind, put_eq (by omega), ok_bind]
    refine ⟨⟨nofun, fun h => absurd h.2 (not_or.mpr ⟨hbase, hoff⟩)⟩,
      ⟨fun _ => ⟨⟨not_le.mp hbase, hbounds⟩, not_le.mp hoff, hend⟩, fun _ => ⟨_, rfl⟩⟩, ?_⟩
    intro s hs
    cases hs
    refine ⟨?_, rfl⟩
    rw [List.length_append, List.length_append, List.length_take, List.length_drop]
    omega
  · rw [if_pos (not_le.mp hend)]
    exact ⟨⟨nofun, fun h => absurd h.1 hend⟩,
      ⟨fun ⟨_, h⟩ => (by cases h), fun h => absurd h.2.2 hend⟩, nofun⟩

theorem writeRegion_step (hsize : size.toNat ≤ maxAlloc) (hout : out.length = size.toNat) :
    RegionStep (writeRegion hashPage inline t size (out, covered) r)
      (r.Fits hashPage inline t size.toNat) (r.Wraps hashPage inline t size.toNat)
      size.toNat (covered + r.covers) := by
  by_cases hbounds : (r.base + r.size).toNat ≤ size.toNat
  · rw [Region.Fits, Region.Wraps, and_iff_right hbounds, and_iff_right hbounds]
    cases hkind : r.kind with
    | full fileOffset =>
      rw [Region.covers, hkind]
      exact writeRegion_full hkind hout hbounds
    | hashRef hashes =>
      rw [Region.covers, hkind, writeRegion, if_neg (not_size_lt hbounds), hkind, ← hout]
      exact writePages_step (by omega) _
    | runHashRef runs =>
      rw [Region.covers, hkind, writeRegion, if_neg (not_size_lt hbounds), hkind, ← hout]
      exact (writePages_step (by omega) _).congr (writeRuns_eq cacheIDPerTrace runs covered)
  · have hlt : size < r.base + r.size := UInt64.lt_iff_toNat_lt.mpr (not_le.mp hbounds)
    rw [writeRegion, if_pos hlt]
    exact ⟨⟨nofun, fun h => absurd h.1 hbounds⟩,
      ⟨fun ⟨_, h⟩ => (by cases h), fun h => absurd h.1 hbounds⟩, nofun⟩

variable (hashPage) in
/-- The regions describe a memory of `size` bytes: each can be put there, and together they cover
it. -/
def Describe (regions : List Region) (inline : Bytes) (t : Tiers) (size : UInt64) : Prop :=
  (∀ r ∈ regions, r.Fits hashPage inline t size.toNat) ∧ (regions.map Region.covers).sum = size

variable (hashPage) in
/-- The first region that cannot be put into the memory is one whose check wraps. -/
def RegionsWrap (regions : List Region) (inline : Bytes) (t : Tiers) (size : UInt64) : Prop :=
  ∃ before r after, regions = before ++ r :: after ∧
    (∀ r' ∈ before, Region.Fits hashPage inline t size.toNat r') ∧
    r.Wraps hashPage inline t size.toNat

variable {regions : List Region}

theorem writeRegions_step (hsize : size.toNat ≤ maxAlloc) (hout : out.length = size.toNat) :
    RegionStep (regions.foldlM (writeRegion hashPage inline t size) (out, covered))
      (∀ r ∈ regions, r.Fits hashPage inline t size.toNat)
      (RegionsWrap hashPage regions inline t size) size.toNat
      (covered + (regions.map Region.covers).sum) := by
  have hstep : ∀ (s : Bytes × UInt64) (r : Region), s.1.length = size.toNat →
      RegionStep (writeRegion hashPage inline t size s r)
        (r.Fits hashPage inline t size.toNat) (r.Wraps hashPage inline t size.toNat)
        size.toNat (s.2 + r.covers) := fun s r hs => writeRegion_step hsize hs
  refine ⟨foldlM_eq_panic (s := (out, covered)) (fun s => s.1.length = size.toNat)
      (fun s r hs => (hstep s r hs).ok) (fun s r s' hs h => ((hstep s r hs).length s' h).1)
      (fun s r hs => (hstep s r hs).panic) hout, ?_, ?_⟩
  · induction regions generalizing out covered with
    | nil => exact ⟨nofun, fun _ => ⟨_, rfl⟩⟩
    | cons r regions ih =>
      rw [List.forall_mem_cons, ← (hstep (out, covered) r hout).ok, List.foldlM_cons]
      constructor
      · rintro ⟨s', h⟩
        obtain ⟨s, hs, h⟩ := bind_eq_ok.mp h
        exact ⟨⟨s, hs⟩, (ih ((hstep _ r hout).length s hs).1).mp ⟨s', h⟩⟩
      · rintro ⟨⟨s, hs⟩, hrest⟩
        obtain ⟨s', h⟩ := (ih ((hstep _ r hout).length s hs).1).mpr hrest
        exact ⟨s', bind_eq_ok.mpr ⟨s, hs, h⟩⟩
  · intro s' h
    induction regions generalizing out covered with
    | nil =>
      cases h
      rw [List.map_nil, List.sum_nil, UInt64.add_zero]
      exact ⟨hout, rfl⟩
    | cons r regions ih =>
      rw [List.foldlM_cons] at h
      obtain ⟨⟨out₁, covered₁⟩, h₁, h⟩ := bind_eq_ok.mp h
      obtain ⟨hlen, hcov⟩ := (hstep (out, covered) r hout).length _ h₁
      dsimp only at hlen hcov
      subst hcov
      rw [List.map_cons, List.sum_cons, ← UInt64.add_assoc]
      exact ih hlen h

theorem materialiseMemory_panic_iff (hsize : size.toNat ≤ maxAlloc) :
    materialiseMemory hashPage regions inline t size = .error .panic ↔
      RegionsWrap hashPage regions inline t size := by
  rw [materialiseMemory, make, if_pos (by omega), ok_bind, bind_eq_panic,
    (writeRegions_step hsize List.length_replicate).panic]
  refine ⟨fun h => h.elim id ?_, .inl⟩
  rintro ⟨s, -, h⟩
  dsimp only at h
  split at h
  · cases h
  · cases h

theorem materialiseMemory_ok_iff (hsize : size.toNat ≤ maxAlloc) :
    (∃ out, materialiseMemory hashPage regions inline t size = .ok out) ↔
      Describe hashPage regions inline t size := by
  have hstep : RegionStep (regions.foldlM (writeRegion hashPage inline t size)
      (List.replicate size.toNat 0, 0)) _ _ _ _ := writeRegions_step hsize List.length_replicate
  rw [materialiseMemory, make, if_pos (by omega), ok_bind, Describe, ← hstep.ok]
  constructor
  · rintro ⟨out, h⟩
    obtain ⟨s, hs, h⟩ := bind_eq_ok.mp h
    dsimp only at h
    split at h
    · cases h
    · next hcovered =>
      rw [not_not, (hstep.length s hs).2, UInt64.zero_add] at hcovered
      exact ⟨⟨s, hs⟩, hcovered⟩
  · rintro ⟨⟨s, hs⟩, hcovered⟩
    refine ⟨s.1, bind_eq_ok.mpr ⟨s, hs, ?_⟩⟩
    dsimp only
    rw [(hstep.length s hs).2, UInt64.zero_add, if_neg (not_not.mpr hcovered)]
    rfl

end Memory

/-! ### Snapshots -/

section Snapshot

variable (hashPage : Bytes → Uint128)

theorem sliceOf_panic_iff {b : Bytes} {off length : UInt64} :
    sliceOf b off length = .error .panic ↔ SumWraps off length b.length := by
  rw [sliceOf]
  by_cases hend : b.length < (off + length).toNat
  · rw [if_pos hend]
    exact ⟨nofun, fun h => absurd h.2 (not_le.mpr hend)⟩
  rw [if_neg hend]
  by_cases hwrap : 2 ^ 64 ≤ off.toNat + length.toNat
  · have hwraps : SumWraps off length b.length := ⟨hwrap, not_lt.mp hend⟩
    exact ⟨fun _ => hwraps, fun _ => hwraps.sub_eq b⟩
  · rw [sub_eq (by rw [toNat_add_of_lt (not_le.mp hwrap)]; omega) (not_lt.mp hend)]
    exact ⟨nofun, fun h => absurd h.1 hwrap⟩

theorem sliceOf_ok_iff {b s : Bytes} {off length : UInt64} :
    sliceOf b off length = .ok s ↔
      SumFits off length b.length ∧ s = slice b off.toNat (off + length).toNat := by
  rw [sliceOf]
  by_cases hend : b.length < (off + length).toNat
  · rw [if_pos hend]
    exact ⟨nofun, fun h => absurd h.1.2 (not_le.mpr hend)⟩
  rw [if_neg hend]
  by_cases hwrap : 2 ^ 64 ≤ off.toNat + length.toNat
  · have hwraps : SumWraps off length b.length := ⟨hwrap, not_lt.mp hend⟩
    rw [hwraps.sub_eq b]
    exact ⟨nofun, fun h => absurd h.1.1 (not_lt.mpr hwrap)⟩
  · rw [sub_eq (by rw [toNat_add_of_lt (not_le.mp hwrap)]; omega) (not_lt.mp hend)]
    constructor
    · intro h
      cases h
      exact ⟨⟨not_le.mp hwrap, not_lt.mp hend⟩, rfl⟩
    · rintro ⟨-, rfl⟩
      rfl

/-- The bytes a record points at in a stream. -/
def Found (b : Bytes) (off length : UInt64) (s : Bytes) : Prop :=
  SumFits off length b.length ∧ s = slice b off.toNat (off + length).toNat

/-- Where the bounds of a snapshot's data are checked with a sum that wraps, everything in front of
that being in order. -/
inductive SnapshotSet.Wraps (s : SnapshotSet) (r : IndexRecord) : Prop where
  | layout (h : SumWraps r.layOffset r.layLength s.lay.length)
  | region {lay : Bytes} {regions : List Region} (hlay : Found s.lay r.layOffset r.layLength lay)
      (hregions : decodeRegions lay = .ok regions)
      (h : RegionsWrap hashPage regions s.mem s.tiers r.memoryBytes)
  | globals {lay : Bytes} {regions : List Region} (hlay : Found s.lay r.layOffset r.layLength lay)
      (hregions : decodeRegions lay = .ok regions)
      (hmemory : Describe hashPage regions s.mem s.tiers r.memoryBytes)
      (h : SumWraps r.globOffset r.globLength s.glob.length)
  | tables {lay glob : Bytes} {regions : List Region} {globals : List GlobalValue}
      (hlay : Found s.lay r.layOffset r.layLength lay)
      (hregions : decodeRegions lay = .ok regions)
      (hmemory : Describe hashPage regions s.mem s.tiers r.memoryBytes)
      (hglob : Found s.glob r.globOffset r.globLength glob)
      (hglobals : decodeGlobals glob = .ok globals)
      (h : SumWraps r.tabOffset r.tabLength s.tab.length)

theorem stream_bind_panic {α β : Type} {x : Except (Fault StreamError) α} (hx : Safe x)
    {f : α → Except (Fault SetError) β} :
    mapFault .stream x >>= f = .error .panic ↔ ∃ a, x = .ok a ∧ f a = .error .panic := by
  rw [bind_eq_panic, mapFault_eq_panic, or_iff_right hx]
  exact exists_congr fun a => by rw [mapFault_eq_ok]

theorem snapshot_panic_iff (s : SnapshotSet) (r : IndexRecord)
    (halloc : r.memoryBytes.toNat ≤ maxAlloc) :
    s.snapshot hashPage r = .error .panic ↔ r.hasSnapshot ∧ s.Wraps hashPage r := by
  rw [SnapshotSet.snapshot]
  by_cases hhas : r.hasSnapshot = true
  · rw [if_neg (not_not.mpr hhas), and_iff_right hhas, bind_eq_panic, sliceOf_panic_iff]
    constructor
    · rintro (h | ⟨lay, hlay, h⟩)
      · exact .layout h
      rw [sliceOf_ok_iff] at hlay
      obtain ⟨regions, hregions, h⟩ := (stream_bind_panic (decodeRegions_safe lay)).mp h
      rw [bind_eq_panic, mapFault_eq_panic, materialiseMemory_panic_iff halloc] at h
      rcases h with h | ⟨memory, hmemory, h⟩
      · exact .region hlay hregions h
      have hdescribe := (materialiseMemory_ok_iff halloc).mp ⟨memory, mapFault_eq_ok.mp hmemory⟩
      rw [bind_eq_panic, sliceOf_panic_iff] at h
      rcases h with h | ⟨glob, hglob, h⟩
      · exact .globals hlay hregions hdescribe h
      rw [sliceOf_ok_iff] at hglob
      obtain ⟨globals, hglobals, h⟩ := (stream_bind_panic (decodeGlobals_safe glob)).mp h
      rw [bind_eq_panic, sliceOf_panic_iff] at h
      rcases h with h | ⟨tab, -, h⟩
      · exact .tables hlay hregions hdescribe hglob hglobals h
      obtain ⟨tables, -, h⟩ := (stream_bind_panic (decodeTables_safe tab)).mp h
      cases h
    · have hmem : ∀ {lay regions}, Found s.lay r.layOffset r.layLength lay →
          decodeRegions lay = .ok regions → Describe hashPage regions s.mem s.tiers r.memoryBytes →
          ∃ memory, sliceOf s.lay r.layOffset r.layLength = .ok lay ∧
            materialiseMemory hashPage regions s.mem s.tiers r.memoryBytes = .ok memory := by
        intro lay regions hlay hregions hdescribe
        obtain ⟨memory, hmemory⟩ := (materialiseMemory_ok_iff halloc).mpr hdescribe
        exact ⟨memory, sliceOf_ok_iff.mpr hlay, hmemory⟩
      intro h
      cases h with
      | layout h => exact .inl h
      | region hlay hregions h =>
        refine .inr ⟨_, sliceOf_ok_iff.mpr hlay, ?_⟩
        refine (stream_bind_panic (decodeRegions_safe _)).mpr ⟨_, hregions, ?_⟩
        rw [bind_eq_panic, mapFault_eq_panic, materialiseMemory_panic_iff halloc]
        exact .inl h
      | globals hlay hregions hdescribe h =>
        obtain ⟨memory, hslice, hmemory⟩ := hmem hlay hregions hdescribe
        refine .inr ⟨_, hslice, (stream_bind_panic (decodeRegions_safe _)).mpr ⟨_, hregions, ?_⟩⟩
        rw [hmemory, bind_eq_panic]
        refine .inr ⟨memory, rfl, ?_⟩
        rw [bind_eq_panic, sliceOf_panic_iff]
        exact .inl h
      | tables hlay hregions hdescribe hglob hglobals h =>
        obtain ⟨memory, hslice, hmemory⟩ := hmem hlay hregions hdescribe
        refine .inr ⟨_, hslice, (stream_bind_panic (decodeRegions_safe _)).mpr ⟨_, hregions, ?_⟩⟩
        rw [hmemory, bind_eq_panic]
        refine .inr ⟨memory, rfl, bind_eq_panic.mpr (.inr ⟨_, sliceOf_ok_iff.mpr hglob, ?_⟩)⟩
        refine (stream_bind_panic (decodeGlobals_safe _)).mpr ⟨_, hglobals, ?_⟩
        rw [bind_eq_panic, sliceOf_panic_iff]
        exact .inl h
  · rw [if_pos hhas]
    exact ⟨nofun, fun h => absurd h.1 hhas⟩

theorem loadStreams_safe (s : Streams) (system : Option SystemCache) :
    Safe (loadStreams hashPage s system) :=
  (safe_mapFault.mpr (decodeIndex_safe s.index)).bind fun _ _ =>
    (safe_mapFault.mpr (decodePageStoreKeyed_safe hashPage truncatedKey s.pages)).bind fun _ _ =>
      safe_ok _

/-- **When materialising panics.** The streams are always decoded without a panic. A snapshot of the
set is materialised without one, given that the memory can be allocated, exactly if no bound that
is reached is checked with a sum that wraps. -/
theorem snapshot_safe_iff (streams : Streams) (system : Option SystemCache) :
    Safe (loadStreams hashPage streams system) ∧
      ∀ s, loadStreams hashPage streams system = .ok s →
        ∀ r ∈ s.records, r.memoryBytes.toNat ≤ maxAlloc →
          (Safe (s.snapshot hashPage r) ↔ ¬ (r.hasSnapshot ∧ s.Wraps hashPage r)) :=
  ⟨loadStreams_safe hashPage streams system, fun s _ r _ halloc =>
    not_congr (snapshot_panic_iff hashPage s r halloc)⟩

end Snapshot

/-- A set of one point: four bytes of memory, a global and a table. -/
def onePointStreams (r : IndexRecord) : Streams where
  index := encodeIndex [r]
  layout := encodeRegions [⟨0, 4, 0, 0, .full 0⟩]
  inlineMem := [1, 2, 3, 4]
  pages := []
  globals := encodeGlobals [⟨0x7f, true, 5, 0⟩]
  tables := encodeTables [⟨0x70, [0, 1]⟩]

/-- The snapshot that these streams hold. -/
def wholeRecord : IndexRecord :=
  { ordinal := 0, exportsBefore := 0, crossingSeq := 0, flags := flagHasSnapshot, memoryBytes := 4,
    layLength := 40, globLength := 24, tabLength := 20 }

theorem snapshot_safe_iff_whole :
    ∃ s, loadStreams (fun _ => ⟨0, 0⟩) (onePointStreams wholeRecord) none = .ok s ∧
      ∃ r ∈ s.records, ¬ (r.hasSnapshot ∧ s.Wraps (fun _ => ⟨0, 0⟩) r) ∧
        ∃ snap, s.snapshot (fun _ => ⟨0, 0⟩) r = .ok snap ∧ snap.memory = [1, 2, 3, 4] := by
  refine ⟨_, rfl, wholeRecord, List.mem_singleton_self _, ?_, _, rfl, rfl⟩
  refine ((snapshot_safe_iff _ (onePointStreams wholeRecord) none).2 _ rfl wholeRecord
    (List.mem_singleton_self _) (by decide)).mp ?_
  exact nofun

/-- The layout of this record starts at 1 and is `2 ^ 64 - 1` bytes long, so it ends at 0, which is
within the bounds of the stream. -/
def wrappingRecord : IndexRecord :=
  { wholeRecord with layOffset := 1, layLength := 0xffffffffffffffff }

theorem snapshot_wraps :
    ∃ s, loadStreams (fun _ => ⟨0, 0⟩) (onePointStreams wrappingRecord) none = .ok s ∧
      ∃ r ∈ s.records, r.memoryBytes.toNat ≤ maxAlloc ∧
        ¬ Safe (s.snapshot (fun _ => ⟨0, 0⟩) r) :=
  ⟨_, rfl, wrappingRecord, List.mem_singleton_self _, by decide, fun h => h rfl⟩

end Wasmsnapshot
