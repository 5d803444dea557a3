import WasmRecorder.Lib.SearchTree
import WasmRecorder.Wasmsnapshot.Nsb1

/-!
# Namespaces as search trees

A page of a namespace that passes the checks of `nsCollect` is a node of a paged search tree.

* `nsWalk_succ_ok_iff` — one step of the walk, in terms of that node.
* `walkSpec` — a walk succeeds exactly over a tree that shares no page and whose entries ascend, and
  then returns those entries.
-/

namespace Wasmsnapshot

open Checked Fallible LittleEndian SearchTree Slice

instance linearOrderUInt64 : LinearOrder UInt64 where
  le_refl := UInt64.le_refl
  le_trans := fun _ _ _ => UInt64.le_trans
  lt_iff_le_not_ge := fun a b => by
    rw [UInt64.not_le]
    exact ⟨fun h => ⟨UInt64.le_of_lt h, h⟩, fun h => h.2⟩
  le_antisymm := fun _ _ => UInt64.le_antisymm
  le_total := UInt64.le_total
  toDecidableLE := inferInstance
  toDecidableEq := inferInstance
  min_def := fun _ _ => rfl
  max_def := fun _ _ => rfl
  compare_eq_compareOfLessAndEq := fun _ _ => rfl

/-! ### Pages as nodes -/

/-- Entries in ascending order of their keys. -/
def Ascending (es : List NsEntry) : Prop := es.Pairwise fun a b => a.1 < b.1

theorem ascending_concat {es : List NsEntry} (h : Ascending es) (e : NsEntry) :
    Ascending (es ++ [e]) ↔ ∀ last, es.getLast? = some last → last.1 < e.1 := by
  rw [Ascending, List.pairwise_append]
  constructor
  · rintro ⟨-, -, hlt⟩ last hlast
    exact hlt last (List.mem_of_getLast? hlast) e (List.mem_singleton_self e)
  · intro hlast
    refine ⟨h, List.pairwise_singleton _ _, fun a ha b hb => ?_⟩
    obtain rfl := List.mem_singleton.mp hb
    rcases List.eq_nil_or_concat' es with rfl | ⟨init, last, rfl⟩
    · cases ha
    have hb := hlast last List.getLast?_concat
    rcases List.mem_append.mp ha with ha | ha
    · exact lt_trans ((List.pairwise_append.mp h).2.2 a ha last (List.mem_singleton_self _)) hb
    · rw [List.mem_singleton.mp ha]
      exact hb

def keysAt (page : Bytes) (count : Nat) : List UInt64 :=
  (List.range count).map fun i => u64At page (nsNodeHeaderBytes + i * 8)

def descsAt (page : Bytes) (count descSize : Nat) : List Bytes :=
  (List.range count).map fun i => slice page (nsNodeHeaderBytes + count * 8 + i * descSize)
    (nsNodeHeaderBytes + count * 8 + (i + 1) * descSize)

def childrenAt (page : Bytes) (count : Nat) : List UInt64 :=
  (List.range (count + 1)).map fun i => u64At page (nsNodeHeaderBytes + count * 8 + i * 8)

/-- The node a page holds, if it passes the checks. -/
def pageNode (descSize : Nat) (page : Bytes) : Option (Node UInt64 UInt64 Bytes) :=
  let count := (u16At page 2).toNat
  if nsOrder descSize < count ∨ ¬ (keysAt page count).Pairwise (· < ·) then none
  else if page[0]? = some nsKindLeaf then
    some (.leaf ((keysAt page count).zip (descsAt page count descSize)))
  else if page[0]? = some nsKindInternal then
    some (.branch (keysAt page count) (childrenAt page count))
  else none

def pageAt (image : Bytes) (page : UInt64) : Bytes :=
  slice image (pageBase page) (pageBase page + nsPageSize)

/-- The nodes of a namespace. -/
def nsFetch (image : Bytes) (pageCount : UInt64) (descSize : Nat) (page : UInt64) :
    Option (Node UInt64 UInt64 Bytes) :=
  if page = 0 ∨ pageCount ≤ page then none else pageNode descSize (pageAt image page)

theorem nsFetch_ordered (image : Bytes) (pageCount : UInt64) (descSize : Nat) :
    Ordered (nsFetch image pageCount descSize) := by
  intro p keys cs h
  rw [nsFetch] at h
  split at h
  · cases h
  rw [pageNode] at h
  split at h
  · cases h
  next hvalid =>
  rw [not_or, not_not] at hvalid
  split at h
  · cases h
  split at h
  · cases h
    refine ⟨hvalid.2, ?_⟩
    rw [childrenAt, keysAt, List.length_map, List.length_map, List.length_range, List.length_range]
  · cases h

theorem payload_le {descSize count : Nat} (hD : 8 ≤ descSize) (hcount : count ≤ nsOrder descSize) :
    nsNodeHeaderBytes + count * 8 + count * descSize ≤ nsPageSize ∧
      nsNodeHeaderBytes + count * 8 + count * 8 + 8 ≤ nsPageSize := by
  rw [nsOrder, Nat.le_div_iff_mul_le (by omega), Nat.mul_add] at hcount
  have hwide := Nat.mul_le_mul_left count hD
  rw [nsPageSize, nsNodeHeaderBytes] at hcount ⊢
  omega

section Page

variable {image : Bytes} {pageCount page : UInt64} {descSize : Nat}

theorem pageBase_le (hlen : pageCount.toNat ≤ image.length / nsPageSize) (h : page < pageCount) :
    pageBase page + nsPageSize ≤ image.length := by
  have hlt : page.toNat + 1 ≤ image.length / nsPageSize :=
    le_trans (UInt64.lt_iff_toNat_lt.mp h) hlen
  have := (Nat.le_div_iff_mul_le (by decide)).mp hlt
  rw [Nat.succ_mul] at this
  exact this

theorem u64At_page (off : Nat) (h : off + 8 ≤ nsPageSize) :
    u64At image (pageBase page + off) = u64At (pageAt image page) off := by
  rw [pageAt, u64At_slice (by omega)]

variable {seen : List UInt64}

theorem nsReadNode_ok_iff (hD : 8 ≤ descSize) (hlen : pageCount.toNat ≤ image.length / nsPageSize)
    {r : NsNode × List UInt64} :
    nsReadNode image pageCount descSize seen page = .ok r ↔
      (page ≠ 0 ∧ page < pageCount) ∧ page ∉ seen ∧ ∃ kind,
        (pageAt image page)[0]? = some kind ∧ (kind = nsKindLeaf ∨ kind = nsKindInternal) ∧
        (u16At (pageAt image page) 2).toNat ≤ nsOrder descSize ∧
        r = (⟨page, kind = nsKindLeaf, (u16At (pageAt image page) 2).toNat, pageBase page⟩,
          page :: seen) := by
  rw [nsReadNode]
  by_cases hzero : page = 0
  · rw [if_pos hzero]
    exact ⟨nofun, fun h => absurd hzero h.1.1⟩
  rw [if_neg hzero]
  by_cases hrange : pageCount ≤ page
  · rw [if_pos hrange]
    exact ⟨nofun, fun h => absurd h.1.2 (not_lt.mpr hrange)⟩
  rw [if_neg hrange]
  by_cases hseen : page ∈ seen
  · rw [if_pos hseen]
    exact ⟨nofun, fun h => absurd hseen h.2.1⟩
  rw [if_neg hseen]
  have hbase := pageBase_le hlen (not_le.mp hrange)
  have hpage : 0 < nsPageSize := by decide
  have hkind : (pageAt image page)[0]? = image[pageBase page]? := by
    rw [pageAt, getElem?_slice, if_pos (by omega), Nat.add_zero]
  have hlt : pageBase page < image.length := by omega
  have hcount : u16At (pageAt image page) 2 = u16At image (pageBase page + 2) := by
    rw [pageAt, u16At_slice (by rw [nsPageSize]; omega)]
  obtain ⟨kind, hbyte⟩ : ∃ kind, image[pageBase page]? = some kind :=
    ⟨_, List.getElem?_eq_getElem hlt⟩
  dsimp only
  rw [hkind, hcount, hbyte, byteAt_eq hbyte]
  change (if kind ≠ nsKindLeaf ∧ kind ≠ nsKindInternal then _ else _) = _ ↔ _
  by_cases hknown : kind = nsKindLeaf ∨ kind = nsKindInternal
  · rw [if_neg (by tauto), uint16_eq (by rw [nsPageSize] at hbase; omega)]
    change (if nsOrder descSize < (u16At image (pageBase page + 2)).toNat then _ else _) = _ ↔ _
    generalize (u16At image (pageBase page + 2)).toNat = count
    by_cases hmany : nsOrder descSize < count
    · rw [if_pos hmany]
      refine ⟨nofun, ?_⟩
      rintro ⟨-, -, _, -, -, hle, -⟩
      exact absurd hmany (not_lt.mpr hle)
    · have hfits : ¬ nsPageSize < nsNodeHeaderBytes + count * 8 +
          count * (if kind = nsKindLeaf then descSize else 8) +
            (if kind = nsKindLeaf then 0 else 8) := by
        obtain ⟨hwide, hnarrow⟩ := payload_le hD (not_lt.mp hmany)
        split
        · omega
        · omega
      rw [if_neg hmany]
      change (if nsPageSize < nsNodeHeaderBytes + count * 8 +
        count * (if kind = nsKindLeaf then descSize else 8) +
        (if kind = nsKindLeaf then 0 else 8) then _ else _) = _ ↔ _
      rw [if_neg hfits]
      constructor
      · intro h
        cases h
        exact ⟨⟨hzero, not_le.mp hrange⟩, hseen, kind, rfl, hknown, not_lt.mp hmany, rfl⟩
      · rintro ⟨-, -, kind', hkind', -, -, rfl⟩
        cases hkind'
        rfl
  · rw [if_pos (by tauto)]
    refine ⟨nofun, ?_⟩
    rintro ⟨-, -, kind', hkind', hknown', -⟩
    cases hkind'
    exact absurd hknown' hknown

/-- A node of a page inside the image whose payload fits. -/
structure NsNode.Fits (image : Bytes) (descSize : Nat) (n : NsNode) : Prop where
  base : n.base = pageBase n.page
  inside : pageBase n.page + nsPageSize ≤ image.length
  payload : nsNodeHeaderBytes + n.count * 8 + n.count * descSize ≤ nsPageSize ∧
    nsNodeHeaderBytes + n.count * 8 + n.count * 8 + 8 ≤ nsPageSize

variable {n : NsNode}

theorem NsNode.Fits.key (h : n.Fits image descSize) {i : Nat} (hi : i < n.count) :
    n.key image i = .ok (u64At (pageAt image n.page) (nsNodeHeaderBytes + i * 8)) := by
  have hin := h.inside
  have hfit := h.payload.2
  have hoff : nsNodeHeaderBytes + i * 8 + 8 ≤ nsPageSize := by omega
  rw [NsNode.key, h.base, uint64_eq (by omega), Nat.add_assoc, u64At_page _ hoff]

theorem NsNode.Fits.checkKeys_ok_iff (h : n.Fits image descSize) {left i : Nat}
    (hi : left = 0 ∨ i + left < n.count) :
    checkKeys image n left (i + 1) = .ok () ↔ ∀ j, i ≤ j → j < i + left →
      u64At (pageAt image n.page) (nsNodeHeaderBytes + j * 8) <
        u64At (pageAt image n.page) (nsNodeHeaderBytes + (j + 1) * 8) := by
  induction left generalizing i with
  | zero => exact ⟨fun _ j _ _ => absurd ‹j < i + 0› (by omega), fun _ => rfl⟩
  | succ left ih =>
    rw [checkKeys, Nat.add_sub_cancel, h.key (by omega), h.key (by omega)]
    change (if u64At (pageAt image n.page) (nsNodeHeaderBytes + (i + 1) * 8) ≤
      u64At (pageAt image n.page) (nsNodeHeaderBytes + i * 8) then _ else _) = _ ↔ _
    by_cases hle : u64At (pageAt image n.page) (nsNodeHeaderBytes + (i + 1) * 8) ≤
        u64At (pageAt image n.page) (nsNodeHeaderBytes + i * 8)
    · rw [if_pos hle]
      exact ⟨nofun, fun hall =>
        absurd (hall i (le_refl _) (by omega)) (not_lt.mpr hle)⟩
    · rw [if_neg hle, ih (by omega)]
      constructor
      · intro hall j hij hj
        rcases Nat.eq_or_lt_of_le hij with rfl | hlt
        · exact not_le.mp hle
        · exact hall j hlt (by omega)
      · intro hall j hij hj
        exact hall j (by omega) (by omega)

theorem NsNode.Fits.checkKeys_iff (h : n.Fits image descSize) :
    checkKeys image n (n.count - 1) 1 = .ok () ↔
      (keysAt (pageAt image n.page) n.count).Pairwise (· < ·) := by
  rw [h.checkKeys_ok_iff (by omega), ← List.isChain_iff_pairwise, List.isChain_iff_getElem]
  constructor
  · intro hall i hi
    rw [keysAt, List.length_map, List.length_range] at hi
    simp only [keysAt, List.getElem_map, List.getElem_range]
    exact hall i (Nat.zero_le _) (by omega)
  · intro hall j _ hj
    have := hall j (by rw [keysAt, List.length_map, List.length_range]; omega)
    simpa only [keysAt, List.getElem_map, List.getElem_range] using this

/-- The entry at a position of a leaf. -/
def entryAt (descSize : Nat) (page : Bytes) (count i : Nat) : NsEntry :=
  (u64At page (nsNodeHeaderBytes + i * 8),
    slice page (nsNodeHeaderBytes + count * 8 + i * descSize)
      (nsNodeHeaderBytes + count * 8 + (i + 1) * descSize))

/-- The entries of a leaf. -/
def entriesAt (descSize : Nat) (page : Bytes) (count : Nat) : List NsEntry :=
  (List.range count).map (entryAt descSize page count)

theorem zip_keysAt (page : Bytes) (count descSize : Nat) :
    (keysAt page count).zip (descsAt page count descSize) = entriesAt descSize page count := by
  rw [keysAt, descsAt, List.zip_map']
  rfl

theorem map_fst_entriesAt (descSize : Nat) (page : Bytes) (count : Nat) :
    (entriesAt descSize page count).map Prod.fst = keysAt page count := by
  rw [entriesAt, List.map_map]
  rfl

variable {out : List NsEntry}

theorem NsNode.Fits.collectLeaf_succ (h : n.Fits image descSize) {left i : Nat} (hi : i < n.count) :
    collectLeaf image descSize n (left + 1) i out =
      match out.getLast? with
      | some last =>
        if (entryAt descSize (pageAt image n.page) n.count i).1 ≤ last.1 then
          .error (.error (.leavesOutOfOrder
            (entryAt descSize (pageAt image n.page) n.count i).1 last.1))
        else collectLeaf image descSize n left (i + 1)
          (out ++ [entryAt descSize (pageAt image n.page) n.count i])
      | none => collectLeaf image descSize n left (i + 1)
          (out ++ [entryAt descSize (pageAt image n.page) n.count i]) := by
  have hin := h.inside
  have hfit := h.payload.1
  have hmul : (i + 1) * descSize ≤ n.count * descSize := Nat.mul_le_mul_right descSize hi
  have hnext : (i + 1) * descSize = i * descSize + descSize := Nat.succ_mul i descSize
  have hsub : (sub image (n.base + nsNodeHeaderBytes + n.count * 8 + i * descSize)
      (n.base + nsNodeHeaderBytes + n.count * 8 + (i + 1) * descSize) :
        Except (Fault NsError) Bytes) =
      .ok (entryAt descSize (pageAt image n.page) n.count i).2 := by
    rw [h.base, sub_eq (by omega) (by omega), entryAt, pageAt, slice_slice (by omega),
      ← Nat.add_assoc, ← Nat.add_assoc, ← Nat.add_assoc, ← Nat.add_assoc]
  rw [collectLeaf, h.key hi]
  dsimp only [bind, Except.bind]
  rw [hsub]
  rfl

theorem NsNode.Fits.collectLeaf_ok_iff (h : n.Fits image descSize) {left i : Nat}
    (hi : i + left = n.count) {out' : List NsEntry} (hout : Ascending out) :
    collectLeaf image descSize n left i out = .ok out' ↔
      out' = out ++ (entriesAt descSize (pageAt image n.page) n.count).drop i ∧
        Ascending out' := by
  have hlen : (entriesAt descSize (pageAt image n.page) n.count).length = n.count := by
    rw [entriesAt, List.length_map, List.length_range]
  induction left generalizing i out with
  | zero =>
    rw [List.drop_eq_nil_of_le (by omega), List.append_nil]
    constructor
    · intro h
      cases h
      exact ⟨rfl, hout⟩
    · rintro ⟨rfl, -⟩
      rfl
  | succ left ih =>
    have hlt : i < (entriesAt descSize (pageAt image n.page) n.count).length := by omega
    rw [h.collectLeaf_succ (by omega), List.drop_eq_getElem_cons hlt]
    have hentry : (entriesAt descSize (pageAt image n.page) n.count)[i] =
        entryAt descSize (pageAt image n.page) n.count i := by
      simp only [entriesAt, List.getElem_map, List.getElem_range]
    rw [hentry]
    generalize entryAt descSize (pageAt image n.page) n.count i = e
    have hcons : ∀ rest : List NsEntry, out ++ e :: rest = out ++ [e] ++ rest := fun rest => by
      rw [List.append_assoc, List.singleton_append]
    have hnext : Ascending (out ++ [e]) →
        (collectLeaf image descSize n left (i + 1) (out ++ [e]) = .ok out' ↔
          out' = out ++ e :: (entriesAt descSize (pageAt image n.page) n.count).drop (i + 1) ∧
            Ascending out') := fun hasc => by
      rw [hcons (List.drop (i + 1) _)]
      exact ih (i := i + 1) (by omega) hasc
    cases hlast : out.getLast? with
    | none =>
      refine hnext ((ascending_concat hout e).mpr fun last h => ?_)
      rw [hlast] at h
      cases h
    | some last =>
      by_cases hle : e.1 ≤ last.1
      · dsimp only
        rw [if_pos hle]
        refine ⟨nofun, ?_⟩
        rintro ⟨rfl, hasc⟩
        rw [hcons] at hasc
        have := (ascending_concat hout e).mp (List.pairwise_append.mp hasc).1 last hlast
        exact absurd this (not_lt.mpr hle)
      · dsimp only
        rw [if_neg hle]
        refine hnext ((ascending_concat hout e).mpr fun last' h => ?_)
        obtain rfl := Option.some.inj (hlast.symm.trans h)
        exact not_le.mp hle

theorem NsNode.Fits.collectLeaf_iff (h : n.Fits image descSize) {out' : List NsEntry}
    (hout : Ascending out) :
    collectLeaf image descSize n n.count 0 out = .ok out' ↔
      out' = out ++ entriesAt descSize (pageAt image n.page) n.count ∧ Ascending out' := by
  rw [h.collectLeaf_ok_iff (Nat.zero_add _) hout, List.drop_zero]

theorem nsFetch_eq_some_iff {node : Node UInt64 UInt64 Bytes} :
    nsFetch image pageCount descSize page = some node ↔
      (page ≠ 0 ∧ page < pageCount) ∧ ∃ kind,
        (pageAt image page)[0]? = some kind ∧ (kind = nsKindLeaf ∨ kind = nsKindInternal) ∧
        (u16At (pageAt image page) 2).toNat ≤ nsOrder descSize ∧
        (keysAt (pageAt image page) (u16At (pageAt image page) 2).toNat).Pairwise (· < ·) ∧
        node = if kind = nsKindLeaf
          then .leaf (entriesAt descSize (pageAt image page) (u16At (pageAt image page) 2).toNat)
          else .branch (keysAt (pageAt image page) (u16At (pageAt image page) 2).toNat)
            (childrenAt (pageAt image page) (u16At (pageAt image page) 2).toNat) := by
  rw [nsFetch, pageNode]
  by_cases hrange : page = 0 ∨ pageCount ≤ page
  · rw [if_pos hrange]
    refine ⟨nofun, fun h => ?_⟩
    rcases hrange with hzero | hle
    · exact absurd hzero h.1.1
    · exact absurd h.1.2 (not_lt.mpr hle)
  rw [if_neg hrange]
  rw [not_or, not_le] at hrange
  rw [zip_keysAt]
  generalize (u16At (pageAt image page) 2).toNat = count
  by_cases hvalid : nsOrder descSize < count ∨ ¬ (keysAt (pageAt image page) count).Pairwise (· < ·)
  · rw [if_pos hvalid]
    refine ⟨nofun, ?_⟩
    rintro ⟨-, kind, -, -, hcount, hkeys, -⟩
    rcases hvalid with hmany | hdesc
    · exact absurd hmany (not_lt.mpr hcount)
    · exact absurd hkeys hdesc
  rw [if_neg hvalid]
  rw [not_or, not_lt, not_not] at hvalid
  by_cases hleaf : (pageAt image page)[0]? = some nsKindLeaf
  · rw [if_pos hleaf]
    constructor
    · intro h
      cases h
      exact ⟨hrange, nsKindLeaf, hleaf, .inl rfl, hvalid.1, hvalid.2, (if_pos rfl).symm⟩
    · rintro ⟨-, kind, hkind, -, -, -, rfl⟩
      obtain rfl := Option.some.inj (hkind.symm.trans hleaf)
      rw [if_pos rfl]
  rw [if_neg hleaf]
  by_cases hinternal : (pageAt image page)[0]? = some nsKindInternal
  · rw [if_pos hinternal]
    constructor
    · intro h
      cases h
      exact ⟨hrange, nsKindInternal, hinternal, .inr rfl, hvalid.1, hvalid.2,
        (if_neg (by decide)).symm⟩
    · rintro ⟨-, kind, hkind, -, -, -, rfl⟩
      obtain rfl := Option.some.inj (hkind.symm.trans hinternal)
      rw [if_neg (by decide)]
  · rw [if_neg hinternal]
    refine ⟨nofun, ?_⟩
    rintro ⟨-, kind, hkind, hknown, -⟩
    rcases hknown with rfl | rfl
    · exact absurd hkind hleaf
    · exact absurd hkind hinternal

theorem NsNode.Fits.visit_ok_iff (h : n.Fits image descSize) {levels : Nat} (hout : Ascending out)
    {s' : WalkState} :
    (do
      checkKeys image n (n.count - 1) 1
      if n.leaf then return (seen, ← collectLeaf image descSize n n.count 0 out)
      else
        let childBase := n.base + nsNodeHeaderBytes + n.count * 8
        (List.range (n.count + 1)).foldlM (fun s i => do
          let child ← uint64 image (childBase + i * 8)
          nsWalk image pageCount descSize levels child s) (seen, out)) = .ok s' ↔
      (keysAt (pageAt image n.page) n.count).Pairwise (· < ·) ∧
        if n.leaf then
          s' = (seen, out ++ entriesAt descSize (pageAt image n.page) n.count) ∧
            Ascending (out ++ entriesAt descSize (pageAt image n.page) n.count)
        else (childrenAt (pageAt image n.page) n.count).foldlM
          (fun s c => nsWalk image pageCount descSize levels c s) (seen, out) = .ok s' := by
  have hfold : ∀ i ∈ List.range (n.count + 1), ∀ s : WalkState,
      (do
        let child ← uint64 image (n.base + nsNodeHeaderBytes + n.count * 8 + i * 8)
        nsWalk image pageCount descSize levels child s) =
      nsWalk image pageCount descSize levels
        (u64At (pageAt image n.page) (nsNodeHeaderBytes + n.count * 8 + i * 8)) s := by
    intro i hi s
    have hlt := List.mem_range.mp hi
    have hin := h.inside
    have hfit := h.payload.2
    have hoff : nsNodeHeaderBytes + n.count * 8 + i * 8 + 8 ≤ nsPageSize := by omega
    rw [h.base, uint64_eq (by omega), ← u64At_page _ hoff, ← Nat.add_assoc, ← Nat.add_assoc]
    rfl
  rw [bind_eq_ok, ← h.checkKeys_iff, childrenAt, ← foldlM_map_of_forall hfold]
  have hleaf : ∀ r, (do return (seen, ← collectLeaf image descSize n n.count 0 out) :
      Except (Fault NsError) WalkState) = .ok r ↔
      r = (seen, out ++ entriesAt descSize (pageAt image n.page) n.count) ∧
        Ascending (out ++ entriesAt descSize (pageAt image n.page) n.count) := by
    intro r
    rw [bind_eq_ok]
    constructor
    · rintro ⟨out', hout', hr⟩
      cases hr
      obtain ⟨rfl, hasc⟩ := (h.collectLeaf_iff hout).mp hout'
      exact ⟨rfl, hasc⟩
    · rintro ⟨rfl, hasc⟩
      exact ⟨_, (h.collectLeaf_iff hout).mpr ⟨rfl, hasc⟩, rfl⟩
  constructor
  · rintro ⟨⟨⟩, hkeys, hrest⟩
    refine ⟨hkeys, ?_⟩
    by_cases hn : n.leaf
    · rw [if_pos hn] at hrest ⊢
      exact (hleaf s').mp hrest
    · rw [if_neg hn] at hrest ⊢
      exact hrest
  · rintro ⟨hkeys, hrest⟩
    refine ⟨(), hkeys, ?_⟩
    by_cases hn : n.leaf
    · rw [if_pos hn] at hrest ⊢
      exact (hleaf s').mpr hrest
    · rw [if_neg hn] at hrest ⊢
      exact hrest

theorem nsWalk_succ_ok_iff (hD : 8 ≤ descSize)
    (hlen : pageCount.toNat ≤ image.length / nsPageSize) {levels : Nat} (hout : Ascending out)
    {s' : WalkState} :
    nsWalk image pageCount descSize (levels + 1) page (seen, out) = .ok s' ↔
      page ∉ seen ∧ ∃ node, nsFetch image pageCount descSize page = some node ∧
        match node with
        | .leaf es => s' = (page :: seen, out ++ es) ∧ Ascending (out ++ es)
        | .branch _ cs => cs.foldlM (fun s c => nsWalk image pageCount descSize levels c s)
            (page :: seen, out) = .ok s' := by
  rw [nsWalk, bind_eq_ok]
  constructor
  · rintro ⟨⟨n, seen'⟩, hread, h⟩
    obtain ⟨hrange, hseen, kind, hkind, hknown, hcount, heq⟩ := (nsReadNode_ok_iff hD hlen).mp hread
    cases heq
    have hfits : NsNode.Fits image descSize
        ⟨page, kind = nsKindLeaf, (u16At (pageAt image page) 2).toNat, pageBase page⟩ :=
      ⟨rfl, pageBase_le hlen hrange.2, payload_le hD hcount⟩
    obtain ⟨hkeys, h⟩ := (hfits.visit_ok_iff hout).mp h
    refine ⟨hseen, _, nsFetch_eq_some_iff.mpr
      ⟨hrange, kind, hkind, hknown, hcount, hkeys, rfl⟩, ?_⟩
    by_cases hleaf : kind = nsKindLeaf
    · rw [if_pos (decide_eq_true hleaf)] at h
      rw [if_pos hleaf]
      exact h
    · rw [if_neg (by simpa using hleaf)] at h
      rw [if_neg hleaf]
      exact h
  · rintro ⟨hseen, node, hnode, h⟩
    obtain ⟨hrange, kind, hkind, hknown, hcount, hkeys, rfl⟩ := nsFetch_eq_some_iff.mp hnode
    have hfits : NsNode.Fits image descSize
        ⟨page, kind = nsKindLeaf, (u16At (pageAt image page) 2).toNat, pageBase page⟩ :=
      ⟨rfl, pageBase_le hlen hrange.2, payload_le hD hcount⟩
    refine ⟨_, (nsReadNode_ok_iff hD hlen).mpr
      ⟨hrange, hseen, kind, hkind, hknown, hcount, rfl⟩, ?_⟩
    refine (hfits.visit_ok_iff hout).mpr ⟨hkeys, ?_⟩
    by_cases hleaf : kind = nsKindLeaf
    · rw [if_pos hleaf] at h
      rw [if_pos (decide_eq_true hleaf)]
      exact h
    · rw [if_neg hleaf] at h
      rw [if_neg (by simpa using hleaf)]
      exact h

/-! ### Whole walks -/

/-- A walk below a page goes well if the pages it visits are new and different, and the entries it
collects ascend. -/
def Walked (seen vs : List UInt64) (out es : List NsEntry) (s' : WalkState) : Prop :=
  (vs.Nodup ∧ ∀ v ∈ vs, v ∉ seen) ∧ Ascending (out ++ es) ∧ s' = (vs.reverse ++ seen, out ++ es)

theorem walked_append {vs₁ vs₂ : List UInt64} {es₁ es₂ : List NsEntry} {s' : WalkState} :
    Walked seen (vs₁ ++ vs₂) out (es₁ ++ es₂) s' ↔
      ∃ s₁, Walked seen vs₁ out es₁ s₁ ∧ Walked s₁.1 vs₂ s₁.2 es₂ s' := by
  rw [Walked, List.reverse_append, List.append_assoc, ← List.append_assoc out, List.nodup_append]
  constructor
  · rintro ⟨⟨⟨hvs₁, hvs₂, hdiff⟩, hnew⟩, hasc, rfl⟩
    refine ⟨(vs₁.reverse ++ seen, out ++ es₁), ⟨⟨hvs₁, fun v hv => ?_⟩, ?_, rfl⟩,
      ⟨hvs₂, fun v hv => ?_⟩, hasc, rfl⟩
    · exact hnew v (List.mem_append_left _ hv)
    · exact (List.pairwise_append.mp hasc).1
    · rw [List.mem_append, List.mem_reverse, not_or]
      exact ⟨fun hv' => hdiff v hv' v hv rfl, hnew v (List.mem_append_right _ hv)⟩
  · rintro ⟨_, ⟨⟨hvs₁, hnew₁⟩, -, rfl⟩, ⟨hvs₂, hnew₂⟩, hasc, rfl⟩
    refine ⟨⟨⟨hvs₁, hvs₂, fun a ha b hb hab => ?_⟩, fun v hv => ?_⟩, hasc, rfl⟩
    · rw [← hab] at hb
      exact hnew₂ a hb (List.mem_append_left _ (List.mem_reverse.mpr ha))
    · rcases List.mem_append.mp hv with hv | hv
      · exact hnew₁ v hv
      · exact fun hseen => hnew₂ v hv (List.mem_append_right _ hseen)

/-- What a walk below a page returns. -/
def WalkSpec (image : Bytes) (pageCount : UInt64) (descSize levels : Nat) : Prop :=
  ∀ (page : UInt64) (seen : List UInt64) (out : List NsEntry) (s' : WalkState), Ascending out →
    (nsWalk image pageCount descSize levels page (seen, out) = .ok s' ↔
      ∃ es vs, entries (nsFetch image pageCount descSize) levels page = some es ∧
        visited (nsFetch image pageCount descSize) levels page = some vs ∧
        Walked seen vs out es s')

theorem WalkSpec.children {levels : Nat} (hwalk : WalkSpec image pageCount descSize levels)
    {cs : List UInt64} (hout : Ascending out) {s' : WalkState} :
    cs.foldlM (fun s c => nsWalk image pageCount descSize levels c s) (seen, out) = .ok s' ↔
      ∃ ess vss, cs.mapM (entries (nsFetch image pageCount descSize) levels) = some ess ∧
        cs.mapM (visited (nsFetch image pageCount descSize) levels) = some vss ∧
        Walked seen vss.flatten out ess.flatten s' := by
  simp only [mapM_eq_some_iff]
  induction cs generalizing seen out with
  | nil =>
    constructor
    · intro h
      cases h
      refine ⟨[], [], .nil, .nil, ⟨List.nodup_nil, fun v hv => absurd hv List.not_mem_nil⟩, ?_, ?_⟩
      · rwa [List.flatten_nil, List.append_nil]
      · rw [List.flatten_nil, List.flatten_nil, List.append_nil]
        rfl
    · rintro ⟨_, _, hess, hvss, -, -, rfl⟩
      cases hess
      cases hvss
      rw [List.flatten_nil, List.flatten_nil, List.append_nil]
      rfl
  | cons c cs ih =>
    rw [List.foldlM_cons, bind_eq_ok]
    constructor
    · rintro ⟨s₁, hfirst, hrest⟩
      obtain ⟨es, vs, hes, hvs, hwalked⟩ := (hwalk c seen out s₁ hout).mp hfirst
      have hout₁ : Ascending s₁.2 := by
        rw [hwalked.2.2]
        exact hwalked.2.1
      obtain ⟨ess, vss, hess, hvss, hwalkeds⟩ := (ih hout₁).mp hrest
      refine ⟨es :: ess, vs :: vss, .cons hes hess, .cons hvs hvss, ?_⟩
      rw [List.flatten_cons, List.flatten_cons]
      exact walked_append.mpr ⟨s₁, hwalked, hwalkeds⟩
    · rintro ⟨_, _, hesc, hvsc, hwalked⟩
      obtain ⟨es, ess, hes, hess, rfl⟩ := List.forall₂_cons_left_iff.mp hesc
      obtain ⟨vs, vss, hvs, hvss, rfl⟩ := List.forall₂_cons_left_iff.mp hvsc
      rw [List.flatten_cons, List.flatten_cons] at hwalked
      obtain ⟨s₁, hwalked₁, hwalkeds⟩ := walked_append.mp hwalked
      have hout₁ : Ascending s₁.2 := by
        rw [hwalked₁.2.2]
        exact hwalked₁.2.1
      exact ⟨s₁, (hwalk c seen out s₁ hout).mpr ⟨_, _, hes, hvs, hwalked₁⟩,
        (ih hout₁).mpr ⟨_, _, hess, hvss, hwalkeds⟩⟩

theorem walkSpec (hD : 8 ≤ descSize) (hlen : pageCount.toNat ≤ image.length / nsPageSize)
    (levels : Nat) : WalkSpec image pageCount descSize levels := by
  induction levels with
  | zero =>
    intro page seen out s' hout
    refine ⟨nofun, ?_⟩
    rintro ⟨_, _, h, -⟩
    cases h
  | succ levels ih =>
    intro page seen out s' hout
    rw [nsWalk_succ_ok_iff hD hlen hout, entries, visited]
    cases hnode : nsFetch image pageCount descSize page with
    | none =>
      refine ⟨?_, ?_⟩
      · rintro ⟨-, _, h, -⟩
        cases h
      · rintro ⟨_, _, h, -⟩
        cases h
    | some node =>
      cases node with
      | leaf es =>
        constructor
        · rintro ⟨hseen, _, h, hrest⟩
          cases h
          refine ⟨es, [page], rfl, rfl, ⟨List.pairwise_singleton _ _, fun v hv => ?_⟩, hrest.2,
            hrest.1⟩
          rwa [List.mem_singleton.mp hv]
        · rintro ⟨_, _, hes, hvs, ⟨-, hnew⟩, hasc, rfl⟩
          cases hes
          cases hvs
          exact ⟨hnew page (List.mem_singleton_self page), _, rfl, rfl, hasc⟩
      | branch keys cs =>
        -- the page itself counts as visited before its children
        have hself : ∀ vs es, Walked seen (page :: vs) out es s' ↔
            page ∉ seen ∧ Walked (page :: seen) vs out es s' := by
          intro vs es
          rw [Walked, Walked, List.nodup_cons, List.reverse_cons, List.append_assoc,
            List.singleton_append]
          refine ⟨?_, ?_⟩
          · rintro ⟨⟨⟨hpage, hvs⟩, hnew⟩, hrest⟩
            refine ⟨hnew page List.mem_cons_self, ⟨hvs, fun v hv => ?_⟩, hrest⟩
            rw [List.mem_cons, not_or]
            exact ⟨fun heq => hpage (heq ▸ hv), hnew v (List.mem_cons_of_mem _ hv)⟩
          · rintro ⟨hseen, ⟨hvs, hnew⟩, hrest⟩
            refine ⟨⟨⟨fun hpage => hnew page hpage List.mem_cons_self, hvs⟩, fun v hv => ?_⟩, hrest⟩
            rcases List.mem_cons.mp hv with rfl | hv
            · exact hseen
            · exact fun hv' => hnew v hv (List.mem_cons_of_mem _ hv')
        constructor
        · rintro ⟨hseen, _, h, hrest⟩
          cases h
          obtain ⟨ess, vss, hess, hvss, hwalked⟩ := (ih.children hout).mp hrest
          exact ⟨_, _, Option.map_eq_some_iff.mpr ⟨ess, hess, rfl⟩,
            Option.map_eq_some_iff.mpr ⟨vss, hvss, rfl⟩, (hself _ _).mpr ⟨hseen, hwalked⟩⟩
        · rintro ⟨_, _, hes, hvs, hwalked⟩
          obtain ⟨ess, hess, rfl⟩ := Option.map_eq_some_iff.mp hes
          obtain ⟨vss, hvss, rfl⟩ := Option.map_eq_some_iff.mp hvs
          obtain ⟨hseen, hwalked⟩ := (hself _ _).mp hwalked
          exact ⟨hseen, _, rfl, (ih.children hout).mpr ⟨ess, vss, hess, hvss, hwalked⟩⟩

end Page

end Wasmsnapshot
