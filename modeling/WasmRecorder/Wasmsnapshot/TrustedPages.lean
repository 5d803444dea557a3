import WasmRecorder.Lib.Stateful
import WasmRecorder.Wasmsnapshot.Materialise
import WasmRecorder.Wasmsnapshot.PageStore

/-!
# Page stores from arbitrary bytes

A page store may come from anywhere. What is read from it is used as the memory of a replay, so every
page has to be what its key says, and the walk over the pages of the namespace has to end whatever
their child pointers are.

* `Stored` — a page that stands in the stream behind its hash.
* `decodePageStoreKeyed_trustworthy` — all of it together.
-/

namespace Wasmsnapshot

open Checked Fallible LittleEndian Slice

/-! ### The pages a walk looks at -/

/-- A page of a namespace that is looked at, and the level of the tree at which it is. -/
structure Visit where
  page : UInt64
  depth : Nat
  deriving DecidableEq, Repr

/-- A step of the walk that keeps a log of the visits. -/
abbrev Logged (α : Type) := EStateM (Fault NsError) (List Visit) α

/-- Whether reading a node came to the bytes of its page: it stops in front of them only because of
the page's number. -/
def looksAt {α : Type} : Except (Fault NsError) α → Bool
  | .error (.error .headerFollowed) => false
  | .error (.error (.pageOutOfRange _ _)) => false
  | .error (.error (.reachedTwice _)) => false
  | _ => true

/-- Log a page that was looked at. -/
def logVisit (page : UInt64) (depth : Nat) (looked : Bool) : Logged Unit := fun log =>
  .ok () (if looked then log ++ [⟨page, depth⟩] else log)

/-- `nsWalk` with a log. -/
def nsWalkLogged (image : Bytes) (pageCount : UInt64) (descSize : Nat) :
    Nat → Nat → UInt64 → WalkState → Logged WalkState
  | 0, _, _, _ => Stateful.lift (.error (.error .tooDeep))
  | levels + 1, depth, page, (seen, out) => do
    let read := nsReadNode image pageCount descSize seen page
    logVisit page depth (looksAt read)
    let r ← Stateful.lift read
    Stateful.lift (checkKeys image r.1 (r.1.count - 1) 1)
    if r.1.leaf then
      let out ← Stateful.lift (collectLeaf image descSize r.1 r.1.count 0 out)
      return (r.2, out)
    else
      (List.range (r.1.count + 1)).foldlM (fun s i => do
        let child ← Stateful.lift
          (uint64 image (r.1.base + nsNodeHeaderBytes + r.1.count * 8 + i * 8))
        nsWalkLogged image pageCount descSize levels (depth + 1) child s) (r.2, out)

/-- `nsCollect` with a log. The root is at level one. -/
def nsCollectLogged (image : Bytes) (descSize : Nat) : Logged (List NsEntry) := do
  let h ← Stateful.lift (nsReadHeader image)
  if h.root = 0 then return []
  else
    let s ← nsWalkLogged image h.pageCount descSize nsMaxDepth 1 h.root ([], [])
    return s.2

/-- The pages that are looked at when the entries of a namespace are collected, whether that goes
well or not. -/
def nsVisits (image : Bytes) (descSize : Nat) : List Visit :=
  Stateful.after (nsCollectLogged image descSize) []

section Log

variable {image : Bytes} {pageCount : UInt64} {descSize : Nat}

theorem nsWalkLogged_erases (levels depth : Nat) (page : UInt64) (s : WalkState) :
    Stateful.Erases (nsWalkLogged image pageCount descSize levels depth page s)
      (nsWalk image pageCount descSize levels page s) := by
  induction levels generalizing depth page s with
  | zero => exact Stateful.erases_lift _
  | succ levels ih =>
    obtain ⟨seen, out⟩ := s
    have hvisit : Stateful.Erases
        (logVisit page depth (looksAt (nsReadNode image pageCount descSize seen page))) (.ok ()) :=
      fun _ => rfl
    rw [nsWalkLogged, nsWalk]
    change Stateful.Erases _ ((Except.ok () : Except (Fault NsError) Unit) >>= fun _ => _)
    refine hvisit.bind fun _ => (Stateful.erases_lift _).bind fun r =>
      (Stateful.erases_lift _).bind fun _ => ?_
    dsimp only
    split
    · exact (Stateful.erases_lift _).bind fun out => Stateful.erases_pure _
    · exact Stateful.Erases.foldlM (fun s i => (Stateful.erases_lift _).bind fun child =>
        ih (depth + 1) child s) _ _

theorem nsCollectLogged_erases (image : Bytes) (descSize : Nat) :
    Stateful.Erases (nsCollectLogged image descSize) (nsCollect image descSize) := by
  rw [nsCollectLogged, nsCollect]
  refine (Stateful.erases_lift _).bind fun h => ?_
  split
  · exact Stateful.erases_pure _
  · exact (nsWalkLogged_erases _ _ _ _).bind fun s => Stateful.erases_pure _

/-- What a part of the walk adds to the log: different pages that were not reached before, at levels
from `depth` on. If the part ends well, these are the pages reached. -/
def Walks (seen : List UInt64) (depth : Nat) (x : Logged WalkState) : Prop :=
  ∀ log, ∃ vs : List Visit, Stateful.after x log = log ++ vs ∧ (vs.map Visit.page).Nodup ∧
    (∀ v ∈ vs, v.page ∉ seen ∧ depth ≤ v.depth ∧ v.depth ≤ nsMaxDepth) ∧
    ∀ s log', x log = .ok s log' → s.1 = (vs.map Visit.page).reverse ++ seen

variable {seen : List UInt64}

theorem walks_lift {depth : Nat} {x : Except (Fault NsError) WalkState}
    (hx : ∀ s, x = .ok s → s.1 = seen) : Walks seen depth (Stateful.lift x) := by
  intro log
  refine ⟨[], ?_, List.nodup_nil, fun v hv => absurd hv List.not_mem_nil, fun s log' h => ?_⟩
  · rw [Stateful.after_lift, List.append_nil]
  · exact hx s (Stateful.lift_eq_ok.mp h).1

theorem Walks.lift_bind {α : Type} {depth : Nat} {x : Except (Fault NsError) α}
    {f : α → Logged WalkState} (hf : ∀ a, x = .ok a → Walks seen depth (f a)) :
    Walks seen depth (Stateful.lift x >>= f) := by
  cases x with
  | ok a => exact fun log => hf a rfl log
  | error e => exact walks_lift (x := .error e) nofun

theorem Walks.bind {depth : Nat} {x : Logged WalkState} {f : WalkState → Logged WalkState}
    (hx : Walks seen depth x) (hf : ∀ s, Walks s.1 depth (f s)) : Walks seen depth (x >>= f) := by
  intro log
  obtain ⟨vs, hafter, hnodup, hnew, hok⟩ := hx log
  rw [Stateful.after] at hafter
  change ∃ vs', Stateful.after (EStateM.bind x f) log = log ++ vs' ∧ _ ∧ _ ∧
    ∀ s log', EStateM.bind x f log = .ok s log' → _
  rw [Stateful.after, EStateM.bind]
  cases hrun : x log with
  | error e log₁ =>
    rw [hrun] at hafter
    exact ⟨vs, hafter, hnodup, hnew, fun _ _ h => by cases h⟩
  | ok s₁ log₁ =>
    rw [hrun] at hafter
    dsimp only at hafter ⊢
    obtain ⟨vs', hafter', hnodup', hnew', hok'⟩ := hf s₁ log₁
    have hseen := hok s₁ log₁ hrun
    rw [Stateful.after] at hafter'
    refine ⟨vs ++ vs', ?_, ?_, fun v hv => ?_, fun s log' h => ?_⟩
    · rw [hafter', hafter, List.append_assoc]
    · rw [List.map_append]
      refine hnodup.append hnodup' fun page hpage hpage' => ?_
      obtain ⟨v, hv, rfl⟩ := List.mem_map.mp hpage'
      refine (hnew' v hv).1 ?_
      rw [hseen]
      exact List.mem_append_left _ (List.mem_reverse.mpr hpage)
    · rcases List.mem_append.mp hv with hv | hv
      · exact hnew v hv
      · refine ⟨fun hmem => (hnew' v hv).1 ?_, (hnew' v hv).2⟩
        rw [hseen]
        exact List.mem_append_right _ hmem
    · rw [hok' s log' h, hseen, List.map_append, List.reverse_append, List.append_assoc]

theorem Walks.foldlM {α : Type} {depth : Nat} {f : WalkState → α → Logged WalkState}
    (hf : ∀ s a, Walks s.1 depth (f s a)) (l : List α) (s : WalkState) :
    Walks s.1 depth (l.foldlM f s) := by
  induction l generalizing s with
  | nil => exact walks_lift (x := .ok s) fun s' h => by cases h; rfl
  | cons a l ih =>
    rw [List.foldlM_cons]
    exact (hf s a).bind ih

/-- A page that is looked at has to be a new one, and what follows to be a walk behind it. -/
theorem Walks.visit {page : UInt64} {depth : Nat} {looked : Bool} {x : Logged WalkState}
    (hdepth : depth ≤ nsMaxDepth) (hbad : looked = false → Walks seen depth x)
    (hgood : looked = true → page ∉ seen ∧ Walks (page :: seen) (depth + 1) x) :
    Walks seen depth (logVisit page depth looked >>= fun _ => x) := by
  intro log
  change ∃ vs, Stateful.after x _ = log ++ vs ∧ _ ∧ _ ∧ ∀ s log', x _ = .ok s log' → _
  cases looked with
  | false => exact hbad rfl log
  | true =>
    rw [if_pos rfl]
    obtain ⟨hseen, hwalks⟩ := hgood rfl
    obtain ⟨vs, hafter, hnodup, hnew, hok⟩ := hwalks (log ++ [⟨page, depth⟩])
    refine ⟨⟨page, depth⟩ :: vs, ?_, ?_, fun v hv => ?_, fun s log' hrun => ?_⟩
    · rw [hafter, List.append_assoc]
      rfl
    · rw [List.map_cons, List.nodup_cons]
      refine ⟨fun hmem => ?_, hnodup⟩
      obtain ⟨v, hv, heq⟩ := List.mem_map.mp hmem
      exact (hnew v hv).1 (heq ▸ List.mem_cons_self)
    · rcases List.mem_cons.mp hv with rfl | hv
      · exact ⟨hseen, le_rfl, hdepth⟩
      · obtain ⟨hpage, hlow, hhigh⟩ := hnew v hv
        exact ⟨fun hmem => hpage (List.mem_cons_of_mem _ hmem), by omega, hhigh⟩
    · rw [hok s log' hrun, List.map_cons, List.reverse_cons, List.append_assoc]
      rfl

/-- A page that was reached before is not looked at again. -/
theorem not_mem_of_looksAt {page : UInt64}
    (h : looksAt (nsReadNode image pageCount descSize seen page) = true) : page ∉ seen := by
  intro hseen
  rw [nsReadNode, if_pos hseen] at h
  split_ifs at h
  all_goals cases h

theorem looksAt_of_ok {α : Type} {x : Except (Fault NsError) α} {a : α} (h : x = .ok a) :
    looksAt x = true := by
  rw [h]
  rfl

theorem nsWalkLogged_walks (hD : 8 ≤ descSize)
    (hlen : pageCount.toNat ≤ image.length / nsPageSize) (levels depth : Nat)
    (hdepth : depth + levels = nsMaxDepth + 1) (page : UInt64) (s : WalkState) :
    Walks s.1 depth (nsWalkLogged image pageCount descSize levels depth page s) := by
  induction levels generalizing depth page s with
  | zero => exact walks_lift nofun
  | succ levels ih =>
    obtain ⟨seen, out⟩ := s
    rw [nsWalkLogged]
    refine Walks.visit (by omega) (fun hbad => ?_) fun hlooked => ⟨not_mem_of_looksAt hlooked, ?_⟩
    · refine Walks.lift_bind fun r hr => ?_
      rw [looksAt_of_ok hr] at hbad
      cases hbad
    · refine Walks.lift_bind fun r hr => Walks.lift_bind fun _ _ => ?_
      have hreached : r.2 = page :: seen := by
        obtain ⟨-, -, kind, -, -, -, rfl⟩ := (nsReadNode_ok_iff hD hlen).mp hr
        rfl
      split
      · refine Walks.lift_bind fun out' _ => walks_lift (x := .ok (r.2, out')) fun s hs => ?_
        cases hs
        exact hreached
      · rw [← hreached]
        exact Walks.foldlM (fun s i => Walks.lift_bind fun child _ => ih _ (by omega) child s) _
          (r.2, out)

/-- No page is looked at twice, and none below the depth limit. -/
def VisitsOnce (vs : List Visit) : Prop :=
  (vs.map Visit.page).Nodup ∧ ∀ v ∈ vs, 1 ≤ v.depth ∧ v.depth ≤ nsMaxDepth

theorem visitsOnce_nil : VisitsOnce [] :=
  ⟨List.nodup_nil, fun _ hv => absurd hv List.not_mem_nil⟩

theorem nsVisits_once (hD : 8 ≤ descSize) (image : Bytes) :
    VisitsOnce (nsVisits image descSize) := by
  refine Stateful.after_bind VisitsOnce ?_ fun h log hread hlog => ?_
  · rw [Stateful.after_lift]
    exact visitsOnce_nil
  · obtain ⟨hheader, rfl⟩ := Stateful.lift_eq_ok.mp hread
    split
    · exact hlog
    · refine Stateful.after_bind VisitsOnce ?_ fun s log' _ hlog => hlog
      obtain ⟨vs, hafter, hnodup, hnew, -⟩ :=
        nsWalkLogged_walks hD (nsReadHeader_pageCount hheader) nsMaxDepth 1 rfl h.root ([], []) []
      rw [hafter, List.nil_append]
      exact ⟨hnodup, fun v hv => (hnew v hv).2⟩

end Log

/-! ### What is in the cache -/

section Pages

variable {hashPage : Bytes → Uint128} {keyOf : Uint128 → UInt64} {raw : Bytes}

/-- A page that stands in a stream, behind a header of 24 bytes: its hash, its size, and four more
bytes. -/
structure Stored (hashPage : Bytes → Uint128) (raw : Bytes) (h : Uint128) (page : Bytes) :
    Prop where
  size : page.length = pageSize
  hash : hashPage page = h
  place : ∃ before reserved after, reserved.length = 4 ∧
    raw = before ++ (h.bytes ++ (le32 (UInt32.ofNat pageSize) ++ (reserved ++ (page ++ after))))

variable (hashPage raw) in
/-- All pages of a cache stand in a stream. -/
def AllStored (c : PerTraceCache) : Prop := ∀ e ∈ c.entries, Stored hashPage raw e.1 e.2

theorem AllStored.insert {c : PerTraceCache} (hc : AllStored hashPage raw c) {h : Uint128}
    {page : Bytes} (hpage : Stored hashPage raw h page) :
    AllStored hashPage raw (c.insert h page) := by
  rw [PerTraceCache.insert]
  split
  · exact hc
  · next hnew =>
    intro e he
    rw [AList.insert_of_notMem hnew] at he
    rcases List.mem_cons.mp he with rfl | he
    · exact hpage
    · exact hc e he

theorem bytes_uint128FromBytes {b : Bytes} (hb : b.length = 16) : (uint128FromBytes b).bytes = b := by
  rw [Uint128.bytes, uint128FromBytes, le64_u64At (by omega), le64_u64At (by omega), List.drop_zero,
    List.take_of_length_le (l := b.drop 8) (by rw [List.length_drop]; omega),
    List.take_append_drop]

theorem record_split {chain : Bytes} (hlen : pageRecordHeaderSize + pageSize ≤ chain.length)
    (hsize : (u32At chain 16).toNat = pageSize) :
    ∃ reserved : Bytes, reserved.length = 4 ∧
      chain = (uint128FromBytes (slice chain 0 16)).bytes ++ (le32 (UInt32.ofNat pageSize) ++
        (reserved ++ (slice chain pageRecordHeaderSize (pageRecordHeaderSize + pageSize) ++
          chain.drop (pageRecordHeaderSize + pageSize)))) := by
  rw [pageRecordHeaderSize] at hlen
  have hword : le32 (UInt32.ofNat pageSize) = slice chain 16 20 := by
    rw [← hsize, UInt32.ofNat_toNat, le32_u32At (by omega), slice, List.drop_take]
  refine ⟨slice chain 20 24, length_slice (by omega), ?_⟩
  rw [bytes_uint128FromBytes (length_slice (by omega)), hword, pageRecordHeaderSize]
  have htail : slice chain 0 (24 + pageSize) ++ chain.drop (24 + pageSize) = chain := by
    rw [slice_zero, List.take_append_drop]
  rw [← List.append_assoc (slice chain 20 24), slice_append (by omega) (by omega),
    ← List.append_assoc (slice chain 16 20), slice_append (by omega) (by omega),
    ← List.append_assoc (slice chain 0 16), slice_append (by omega) (by omega), htail]

theorem decodeChain_stored {key : UInt64} {n n' : Nat} (before : Bytes) {chain : Bytes}
    (after : Bytes) {c c' : PerTraceCache} (hraw : raw = before ++ (chain ++ after))
    (hc : AllStored hashPage raw c)
    (h : decodeChain hashPage keyOf key n chain c = .ok (n', c')) :
    AllStored hashPage raw c' := by
  induction hsize : chain.length using Nat.strong_induction_on generalizing n chain c before with
  | _ size ih =>
    rw [decodeChain] at h
    split at h
    · cases h
      exact hc
    split at h
    · cases h
    · next hheader =>
      obtain ⟨name, hname, h⟩ := bind_eq_ok.mp h
      obtain ⟨word, hword, h⟩ := bind_eq_ok.mp h
      rw [pageRecordHeaderSize] at hheader
      rw [sub_eq (by omega) (by omega)] at hname
      rw [uint32_eq (by omega)] at hword
      cases hname
      cases hword
      dsimp only at h
      split at h
      · cases h
      · next hpageSize =>
        rw [not_not] at hpageSize
        split at h
        · cases h
        · next hleft =>
          rw [hpageSize, not_lt] at hleft
          have hfits : pageRecordHeaderSize + pageSize ≤ chain.length := by
            rw [pageSize, pageRecordHeaderSize] at *
            omega
          obtain ⟨page, hpage, h⟩ := bind_eq_ok.mp h
          rw [hpageSize, sub_eq (by omega) hfits] at hpage
          cases hpage
          split at h
          · cases h
          · next hhash =>
            split at h
            · cases h
            · obtain ⟨reserved, hreserved, hsplit⟩ := record_split hfits hpageSize
              have hstored : Stored hashPage raw (uint128FromBytes (slice chain 0 16))
                  (slice chain pageRecordHeaderSize (pageRecordHeaderSize + pageSize)) := by
                refine ⟨?_, not_not.mp hhash, before, reserved,
                  chain.drop (pageRecordHeaderSize + pageSize) ++ after, hreserved, ?_⟩
                · rw [length_slice hfits, Nat.add_sub_cancel_left]
                · conv_lhs => rw [hraw, hsplit]
                  simp only [List.append_assoc]
              rw [hpageSize] at h
              refine ih _ ?_ (before ++ chain.take (pageRecordHeaderSize + pageSize)) ?_
                (hc.insert hstored) h rfl
              · rw [List.length_drop, pageRecordHeaderSize]
                omega
              · rw [hraw, List.append_assoc, ← List.append_assoc (chain.take _),
                  List.take_append_drop]

theorem decodeEntry_stored {c c' : PerTraceCache} {e : NsEntry} (hc : AllStored hashPage raw c)
    (h : decodeEntry hashPage keyOf raw c e = .ok c') : AllStored hashPage raw c' := by
  rw [decodeEntry] at h
  obtain ⟨start, -, h⟩ := bind_eq_ok.mp h
  obtain ⟨length, -, h⟩ := bind_eq_ok.mp h
  dsimp only at h
  split at h
  · cases h
  · next hrange =>
    rw [not_or, not_lt, not_lt, UInt64.le_iff_toNat_le] at hrange
    obtain ⟨chain, hchain, h⟩ := bind_eq_ok.mp h
    rw [sub_eq hrange.1 hrange.2] at hchain
    cases hchain
    obtain ⟨⟨n, c₁⟩, hdecode, h⟩ := bind_eq_ok.mp h
    dsimp only at h
    split at h
    · cases h
    · cases h
      refine decodeChain_stored (raw.take start.toNat) (raw.drop (start + length).toNat) ?_ hc hdecode
      rw [← slice_zero, ← List.append_assoc, slice_append (Nat.zero_le _) hrange.1, slice_zero,
        List.take_append_drop]

theorem nsCollect_ascending {descSize : Nat} (hD : 8 ≤ descSize) {image : Bytes} {es : List NsEntry}
    (h : nsCollect image descSize = .ok es) : Ascending es := by
  rw [nsCollect] at h
  obtain ⟨header, hheader, h⟩ := bind_eq_ok.mp h
  split at h
  · cases h
    exact List.Pairwise.nil
  · obtain ⟨s, hwalk, h⟩ := bind_eq_ok.mp h
    cases h
    obtain ⟨es, vs, -, -, -, hasc, rfl⟩ :=
      (walkSpec hD (nsReadHeader_pageCount hheader) nsMaxDepth _ [] [] s .nil).mp hwalk
    exact hasc

theorem Ascending.nodup_keys {es : List NsEntry} (h : Ascending es) : (es.map Prod.fst).Nodup :=
  (List.Pairwise.map Prod.fst (fun _ _ hlt => hlt) h).imp fun hlt => ne_of_lt hlt

theorem collectStore_eq {es : List NsEntry} (h : collectStore raw = .ok es) :
    nsCollect raw pageStoreDescSize = .ok es := by
  rw [collectStore] at h
  split at h
  · next es' hes =>
    cases h
    exact hes
  · cases h
  · cases h

/-- The number of keys that the version record in the header page declares. -/
def declaredKeys (raw : Bytes) : Nat := (u32At raw (pageStoreSidecarOffset + 12)).toNat

theorem decodePageStoreKeyed_ok {c : PerTraceCache}
    (h : decodePageStoreKeyed hashPage keyOf raw = .ok c) :
    AllStored hashPage raw c ∧ (raw ≠ [] → ∃ es, nsCollect raw pageStoreDescSize = .ok es ∧
      es.length = declaredKeys raw) := by
  rw [decodePageStoreKeyed] at h
  split at h
  · next hempty =>
    cases h
    exact ⟨fun e he => absurd he List.not_mem_nil,
      fun hne => absurd (List.length_eq_zero_iff.mp hempty) hne⟩
  split at h
  · cases h
  · next hlen =>
    rw [not_lt, nsPageSize] at hlen
    split at h
    · cases h
    obtain ⟨s, hs, h⟩ := bind_eq_ok.mp h
    split at h
    · cases h
    obtain ⟨version, -, h⟩ := bind_eq_ok.mp h
    obtain ⟨size, -, h⟩ := bind_eq_ok.mp h
    obtain ⟨keys, hkeys, h⟩ := bind_eq_ok.mp h
    obtain ⟨flags, -, h⟩ := bind_eq_ok.mp h
    split at h
    · cases h
    split at h
    · cases h
    split at h
    · cases h
    obtain ⟨es, hes, h⟩ := bind_eq_ok.mp h
    split at h
    · cases h
    · next hcount =>
      rw [not_not] at hcount
      refine ⟨foldlM_preserves (AllStored hashPage raw) (fun c e c' hc => decodeEntry_stored hc)
        (fun e he => absurd he List.not_mem_nil) h, fun _ => ⟨es, collectStore_eq hes, ?_⟩⟩
      rw [sub_eq (by decide) (by rw [pageStoreSidecarOffset, pageStoreSidecarSize]; omega)] at hs
      cases hs
      have hwide : (slice raw pageStoreSidecarOffset
          (pageStoreSidecarOffset + pageStoreSidecarSize)).length = 16 :=
        length_slice (by rw [pageStoreSidecarOffset, pageStoreSidecarSize]; omega)
      rw [uint32_eq (by omega)] at hkeys
      cases hkeys
      rw [hcount, declaredKeys, u32At_slice (by decide)]

/-- **A page store can be trusted wherever it comes from.** Whatever the stream holds, the decoder
does not panic, looks at no page of the namespace twice and at none below the depth limit. If it
accepts the stream, every page of the cache is a whole page, has the hash it is filed under and stands
in the stream behind a header with that hash, and the namespace has as many different keys as the
version record declares. -/
theorem decodePageStoreKeyed_trustworthy (hashPage : Bytes → Uint128) (keyOf : Uint128 → UInt64)
    (raw : Bytes) :
    Safe (decodePageStoreKeyed hashPage keyOf raw) ∧
      Stateful.Erases (nsCollectLogged raw pageStoreDescSize) (nsCollect raw pageStoreDescSize) ∧
      ((nsVisits raw pageStoreDescSize).map Visit.page).Nodup ∧
      (∀ v ∈ nsVisits raw pageStoreDescSize, v.depth ≤ 16) ∧
      ∀ c, decodePageStoreKeyed hashPage keyOf raw = .ok c →
        (∀ h page, AList.lookup h c = some page → Stored hashPage raw h page) ∧
        (raw ≠ [] → ∃ es, nsCollect raw pageStoreDescSize = .ok es ∧
          (es.map Prod.fst).dedup.length = declaredKeys raw) := by
  have hwide : 8 ≤ pageStoreDescSize := by decide
  obtain ⟨hnodup, hdepth⟩ := nsVisits_once hwide raw
  refine ⟨decodePageStoreKeyed_safe hashPage keyOf raw, nsCollectLogged_erases _ _, hnodup,
    fun v hv => (hdepth v hv).2, fun c hc => ?_⟩
  obtain ⟨hstored, hkeys⟩ := decodePageStoreKeyed_ok hc
  refine ⟨fun h page hpage => hstored ⟨h, page⟩ (AList.mem_lookup_iff.mp hpage), fun hne => ?_⟩
  obtain ⟨es, hes, hlength⟩ := hkeys hne
  refine ⟨es, hes, ?_⟩
  rw [List.dedup_eq_self.mpr (nsCollect_ascending hwide hes).nodup_keys, List.length_map,
    hlength]

/-- The store of two pages with one key is accepted, and the second of them stands in it. -/
theorem decodePageStoreKeyed_trusted_twoPages :
    ∃ raw c page, decodePageStoreKeyed firstByte (fun _ => 7) raw = .ok c ∧
      AList.lookup ⟨1, 0⟩ c = some page ∧ Stored firstByte raw ⟨1, 0⟩ page := by
  obtain ⟨raw, c, -, hdecode, hsame⟩ : ∃ raw c,
      encodePageStoreKeyed (fun _ => 7) twoPages = .ok raw ∧
        decodePageStoreKeyed firstByte (fun _ => 7) raw = .ok c ∧
        c.toFinmap = twoPages.toFinmap := exists_pageStore twoPages_wellFiled twoPages_fits
  have hlookup : AList.lookup ⟨1, 0⟩ c = some (List.replicate pageSize 1) := by
    rw [← Finmap.lookup_toFinmap, hsame]
    rfl
  obtain ⟨-, -, -, -, hall⟩ := decodePageStoreKeyed_trustworthy firstByte (fun _ => 7) raw
  exact ⟨raw, c, _, hdecode, hlookup, (hall c hdecode).1 _ _ hlookup⟩

end Pages

end Wasmsnapshot
