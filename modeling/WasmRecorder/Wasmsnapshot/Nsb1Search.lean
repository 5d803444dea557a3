import WasmRecorder.Wasmsnapshot.Nsb1Pages

/-!
# The producer's lookup

The producer searches a namespace by descending to one key; `nsCollect` enumerates it. The two
agree on an image that `nsCollect` accepts exactly if the separators of its internal nodes separate
the keys below them, which is not among the things `nsCollect` checks.

* `nsCollect_ok_iff` — what `nsCollect` accepts.
* `nimLookup_iff_separated` — the two readers agree exactly if the separators separate.
-/

namespace Wasmsnapshot

open Checked Fallible LittleEndian SearchTree Slice

section Page

variable {pageCount page : UInt64} {descSize : Nat}

/-! ### The producer's descent -/

variable {t : NimCowBTree}

theorem NimCowBTree.lowerBound_eq {count : Nat} (hin : pageBase page + nsPageSize ≤ t.pages.length)
    (hfit : nsNodeHeaderBytes + count * 8 ≤ nsPageSize)
    (hkeys : (keysAt (pageAt t.pages page) count).Pairwise (· < ·)) (key : UInt64) {lo hi : Nat}
    (hlo : lo ≤ position (keysAt (pageAt t.pages page) count) key)
    (hhi : position (keysAt (pageAt t.pages page) count) key ≤ hi) (hcount : hi ≤ count) :
    t.lowerBound page key lo hi = .ok (position (keysAt (pageAt t.pages page) count) key) := by
  induction hn : hi - lo using Nat.strongRecOn generalizing lo hi with
  | ind n ih =>
    rw [NimCowBTree.lowerBound]
    by_cases hlt : lo < hi
    · rw [if_pos hlt]
      have hmid : (lo + hi) / 2 < hi := by omega
      have hoff : nsNodeHeaderBytes + (lo + hi) / 2 * 8 + 8 ≤ nsPageSize := by omega
      have hget : (keysAt (pageAt t.pages page) count)[(lo + hi) / 2]? =
          some (u64At (pageAt t.pages page) (nsNodeHeaderBytes + (lo + hi) / 2 * 8)) := by
        rw [keysAt, List.getElem?_map, List.getElem?_range (by omega)]
        rfl
      have hread : t.nodeKey page ((lo + hi) / 2) =
          .ok (u64At (pageAt t.pages page) (nsNodeHeaderBytes + (lo + hi) / 2 * 8)) := by
        rw [nodeKey, uint64_eq (by omega), Nat.add_assoc, u64At_page _ hoff]
      have hside := lt_iff_lt_position hkeys (k := key) hget
      dsimp only
      rw [hread]
      change (if _ < key then _ else _) = _
      by_cases hless : u64At (pageAt t.pages page) (nsNodeHeaderBytes + (lo + hi) / 2 * 8) < key
      · rw [if_pos hless]
        have := hside.mp hless
        exact ih (hi - ((lo + hi) / 2 + 1)) (by omega) (by omega) hhi hcount rfl
      · rw [if_neg hless]
        have : ¬ (lo + hi) / 2 < position (keysAt (pageAt t.pages page) count) key :=
          fun h => hless (hside.mpr h)
        exact ih ((lo + hi) / 2 - lo) (by omega) hlo (by omega) (by omega) rfl
    · rw [if_neg hlt]
      have : lo = position (keysAt (pageAt t.pages page) count) key := by omega
      rw [← this]
      rfl

theorem NimCowBTree.keyIsAt_eq {count : Nat} (hin : pageBase page + nsPageSize ≤ t.pages.length)
    (hfit : nsNodeHeaderBytes + count * 8 ≤ nsPageSize) (key : UInt64) (idx : Nat) :
    t.keyIsAt page key count idx =
      .ok (decide ((keysAt (pageAt t.pages page) count)[idx]? = some key)) := by
  rw [keyIsAt]
  by_cases hlt : idx < count
  · have hoff : nsNodeHeaderBytes + idx * 8 + 8 ≤ nsPageSize := by omega
    rw [if_pos hlt, nodeKey, uint64_eq (by omega), Nat.add_assoc, u64At_page _ hoff, keysAt,
      List.getElem?_map, List.getElem?_range hlt]
    change Except.ok _ = Except.ok _
    rw [Option.map_some]
    simp only [Option.some_inj]
  · rw [if_neg hlt, keysAt, List.getElem?_eq_none (by
      rw [List.length_map, List.length_range]
      omega)]
    rfl

/-- What the descent does at a node. -/
def stepAt (key : UInt64) : Node UInt64 UInt64 Bytes → Except (Fault NimError) (Bytes ⊕ UInt64)
  | .leaf es =>
    match es.find? fun e => e.1 = key with
    | some e => .ok (.inl e.2)
    | none => .error (.error .keyNotFound)
  | .branch keys cs =>
    match cs[childIndex keys key]? with
    | some c => .ok (.inr c)
    | none => .error .panic

theorem NimCowBTree.step_eq (hD : 8 ≤ t.descriptorSize)
    (hlen : pageCount.toNat ≤ t.pages.length / nsPageSize) {node : Node UInt64 UInt64 Bytes}
    (hnode : nsFetch t.pages pageCount t.descriptorSize page = some node) (key : UInt64) :
    t.step page key = stepAt key node := by
  obtain ⟨hrange, kind, hkind, -, hcount, hkeys, rfl⟩ := nsFetch_eq_some_iff.mp hnode
  have hin := pageBase_le hlen hrange.2
  obtain ⟨hwide, hnarrow⟩ := payload_le hD hcount
  have hpage : 0 < nsPageSize := by decide
  have hbyte : t.pages[pageBase page]? = some kind := by
    rw [← hkind, pageAt, getElem?_slice, if_pos (by omega), Nat.add_zero]
  have hread : (uint16 t.pages (pageBase page + 2) : Except (Fault NimError) UInt16) =
      .ok (u16At (pageAt t.pages page) 2) := by
    rw [uint16_eq (by rw [nsPageSize] at hin; omega), pageAt,
      u16At_slice (by rw [nsPageSize]; omega)]
  rw [step, hread]
  dsimp only [bind, Except.bind]
  generalize (u16At (pageAt t.pages page) 2).toNat = count at *
  have hpos : position (keysAt (pageAt t.pages page) count) key ≤ count := by
    refine le_trans (position_le _ key) ?_
    rw [keysAt, List.length_map, List.length_range]
  rw [t.lowerBound_eq hin (by omega) hkeys key (Nat.zero_le _) hpos (le_refl _)]
  dsimp only
  rw [t.keyIsAt_eq hin (by omega)]
  dsimp only
  rw [byteAt_eq hbyte]
  dsimp only
  by_cases hleaf : kind = nsKindLeaf
  · rw [if_pos hleaf, if_pos hleaf, stepAt, find?_eq_position (by
      rw [← List.pairwise_map, map_fst_entriesAt]; exact hkeys) key, map_fst_entriesAt]
    generalize position (keysAt (pageAt t.pages page) count) key = pos at *
    by_cases hfound : (keysAt (pageAt t.pages page) count)[pos]? = some key
    · rw [if_pos (decide_eq_true hfound)]
      have hlt : pos < count := by
        have := (List.getElem?_eq_some_iff.mp hfound).1
        rwa [keysAt, List.length_map, List.length_range] at this
      have hmul : (pos + 1) * t.descriptorSize ≤ count * t.descriptorSize :=
        Nat.mul_le_mul_right _ hlt
      have hnext : (pos + 1) * t.descriptorSize = pos * t.descriptorSize + t.descriptorSize :=
        Nat.succ_mul _ _
      rw [keysAt, List.getElem?_map, List.getElem?_range hlt] at hfound
      have hkey : (entryAt t.descriptorSize (pageAt t.pages page) count pos).1 = key :=
        Option.some.inj hfound
      rw [entriesAt, List.getElem?_map, List.getElem?_range hlt, Option.map_some,
        Option.filter_some, if_pos (decide_eq_true hkey), sub_eq (by omega) (by omega)]
      dsimp only
      rw [entryAt, pageAt, slice_slice (by omega), hnext, ← Nat.add_assoc, ← Nat.add_assoc,
        ← Nat.add_assoc, ← Nat.add_assoc, ← Nat.add_assoc]
      rfl
    · rw [if_neg (by simpa using hfound)]
      have hnone : ((entriesAt t.descriptorSize (pageAt t.pages page) count)[pos]?.filter
          fun e => e.1 = key) = none := by
        rw [Option.filter_eq_none_iff]
        intro e he hkey
        rw [← map_fst_entriesAt t.descriptorSize, List.getElem?_map, he] at hfound
        exact hfound (congrArg some (of_decide_eq_true hkey))
      rw [hnone]
  · rw [if_neg hleaf, if_neg hleaf, stepAt, childIndex_eq hkeys key]
    have hidx : (if decide ((keysAt (pageAt t.pages page) count)[
          position (keysAt (pageAt t.pages page) count) key]? = some key) = true
        then position (keysAt (pageAt t.pages page) count) key + 1
        else position (keysAt (pageAt t.pages page) count) key) =
        childIndex (keysAt (pageAt t.pages page) count) key := by
      rw [childIndex_eq hkeys key]
      simp only [decide_eq_true_eq]
    have hle : childIndex (keysAt (pageAt t.pages page) count) key ≤ count := by
      refine le_trans (childIndex_le _ key) ?_
      rw [keysAt, List.length_map, List.length_range]
    rw [← childIndex_eq hkeys key, hidx]
    generalize childIndex (keysAt (pageAt t.pages page) count) key = idx at *
    have hoff : nsNodeHeaderBytes + count * 8 + idx * 8 + 8 ≤ nsPageSize := by omega
    rw [uint64_eq (by omega), childrenAt, List.getElem?_map, List.getElem?_range (by omega),
      Option.map_some, ← u64At_page _ hoff, ← Nat.add_assoc, ← Nat.add_assoc]
    rfl

/-- What a lookup answers. -/
def answer : Option Bytes → Except (Fault NimError) Bytes
  | some desc => .ok desc
  | none => .error (.error .keyNotFound)

theorem NimCowBTree.descend_eq (hD : 8 ≤ t.descriptorSize)
    (hlen : pageCount.toNat ≤ t.pages.length / nsPageSize) {levels : Nat} {key : UInt64}
    {o : Option Bytes}
    (h : lookup (nsFetch t.pages pageCount t.descriptorSize) levels page key = some o) :
    t.descend key levels page = some (answer o) := by
  induction levels generalizing page with
  | zero => cases h
  | succ levels ih =>
    rw [lookup] at h
    cases hnode : nsFetch t.pages pageCount t.descriptorSize page with
    | none => rw [hnode] at h; cases h
    | some node =>
      rw [hnode] at h
      rw [descend, step_eq hD hlen hnode]
      cases node with
      | leaf es =>
        rw [← Option.some.inj h, stepAt]
        cases es.find? fun e => e.1 = key with
        | none => rfl
        | some e => rfl
      | branch keys cs =>
        obtain ⟨c, hc, h⟩ := Option.bind_eq_some_iff.mp h
        rw [stepAt, hc]
        exact ih h

theorem NimCowBTree.descend_add {key : UInt64} {rounds : Nat} {r : Except (Fault NimError) Bytes}
    (h : t.descend key rounds page = some r) (more : Nat) :
    t.descend key (rounds + more) page = some r := by
  induction rounds generalizing page with
  | zero => cases h
  | succ rounds ih =>
    rw [Nat.succ_add, descend]
    rw [descend] at h
    cases hstep : t.step page key with
    | error e => rw [hstep] at h; exact h
    | ok next =>
      rw [hstep] at h
      cases next with
      | inl desc => exact h
      | inr child => exact ih h

end Page

/-! ### Both readers on one image -/

section Image

variable {image : Bytes}

theorem nsReadHeader_ok (descSize : Nat) {h : NsHeader} (hheader : nsReadHeader image = .ok h) :
    h.pageCount.toNat ≤ image.length / nsPageSize ∧ ∃ t, nimLoadCowBTree image descSize = .ok t ∧
      t.pages = image ∧ t.descriptorSize = descSize ∧ t.committedRoot = h.root := by
  rw [nsReadHeader] at hheader
  by_cases hshort : image.length < nsHeaderTotal
  · rw [if_pos hshort] at hheader
    cases hheader
  by_cases hmagic : image.take 4 ≠ nsMagic
  · rw [if_neg hshort, if_pos hmagic] at hheader
    cases hheader
  by_cases halign : image.length % nsPageSize ≠ 0
  · rw [if_neg hshort, if_neg hmagic, if_pos halign] at hheader
    cases hheader
  have hfield : ∀ {off : Nat}, off + 8 ≤ nsHeaderTotal → off + 8 ≤ image.length := by
    intro off hoff
    omega
  have hc0 : nsOffCommit0 + 8 ≤ image.length := hfield (by decide)
  have hc1 : nsOffCommit1 + 8 ≤ image.length := hfield (by decide)
  have hr0 : nsOffRoot0 + 8 ≤ image.length := hfield (by decide)
  have hr1 : nsOffRoot1 + 8 ≤ image.length := hfield (by decide)
  have hload : nimLoadCowBTree image descSize = .ok ⟨descSize, image, u64At image nsOffRoot0,
      u64At image nsOffRoot1, u64At image nsOffCommit0, u64At image nsOffCommit1⟩ := by
    rw [nimLoadCowBTree, if_neg hshort, if_neg hmagic, if_neg halign, uint64_eq hr0, uint64_eq hr1,
      uint64_eq hc0, uint64_eq hc1]
    rfl
  rw [if_neg hshort, if_neg hmagic, if_neg halign, uint64_eq hc0, uint64_eq hc1, uint64_eq hr0,
    uint64_eq hr1] at hheader
  have hp : nsOffPageCount + 8 ≤ image.length := hfield (by decide)
  have hoff : nsOffFlags < image.length := lt_of_lt_of_le (by decide) (not_lt.mp hshort)
  have hflags : image[nsOffFlags]? = some image[nsOffFlags] := List.getElem?_eq_getElem hoff
  rw [byteAt_eq hflags, uint64_eq hp] at hheader
  dsimp only [bind, Except.bind] at hheader
  by_cases hcount : image.length / nsPageSize < (u64At image nsOffPageCount).toNat
  · rw [if_pos hcount] at hheader
    cases hheader
  rw [if_neg hcount] at hheader
  cases hheader
  refine ⟨not_lt.mp hcount, _, hload, rfl, rfl, ?_⟩
  rw [NimCowBTree.committedRoot]
  split
  · rfl
  · split
    · rfl
    · rfl

variable {descSize : Nat}

theorem nsCollect_ok_iff (hD : 8 ≤ descSize) {es : List NsEntry} :
    nsCollect image descSize = .ok es ↔ ∃ h, nsReadHeader image = .ok h ∧
      (h.root = 0 ∧ es = [] ∨ h.root ≠ 0 ∧ Ascending es ∧ ∃ vs,
        entries (nsFetch image h.pageCount descSize) nsMaxDepth h.root = some es ∧
        visited (nsFetch image h.pageCount descSize) nsMaxDepth h.root = some vs ∧ vs.Nodup) := by
  rw [nsCollect, bind_eq_ok]
  refine exists_congr fun h => and_congr_right fun hheader => ?_
  have hlen := (nsReadHeader_ok descSize hheader).1
  by_cases hroot : h.root = 0
  · rw [if_pos hroot]
    constructor
    · intro heq
      cases heq
      exact .inl ⟨hroot, rfl⟩
    · rintro (⟨-, rfl⟩ | ⟨hne, -⟩)
      · rfl
      · exact absurd hroot hne
  rw [if_neg hroot, bind_eq_ok]
  constructor
  · rintro ⟨s', hwalk, heq⟩
    cases heq
    obtain ⟨es, vs, hes, hvs, ⟨hnodup, -⟩, hasc, rfl⟩ :=
      (walkSpec hD hlen nsMaxDepth _ _ _ _ List.Pairwise.nil).mp hwalk
    exact .inr ⟨hroot, hasc, vs, hes, hvs, hnodup⟩
  · rintro (⟨heq, -⟩ | ⟨-, hasc, vs, hes, hvs, hnodup⟩)
    · exact absurd heq hroot
    · refine ⟨(vs.reverse ++ [], [] ++ es),
        (walkSpec hD hlen nsMaxDepth _ _ _ _ List.Pairwise.nil).mpr ⟨es, vs, hes, hvs,
          ⟨hnodup, fun v _ => List.not_mem_nil⟩, hasc, rfl⟩, rfl⟩

/-- The producer's lookup answers for every key what the entries say. -/
def Searchable (image : Bytes) (descSize : Nat) (es : List NsEntry) : Prop :=
  ∀ key, ∃ rounds, nimLookup rounds image descSize key =
    some (answer ((es.find? fun e => e.1 = key).map Prod.snd))

/-- In the tree below the committed root, every separator is greater than the keys below the
children on its left, and not greater than those below the children on its right. -/
def SeparatorsHold (image : Bytes) (descSize : Nat) : Prop :=
  ∀ h, nsReadHeader image = .ok h → h.root ≠ 0 →
    Separated (nsFetch image h.pageCount descSize) nsMaxDepth h.root

theorem nimLookup_eq (hD : 8 ≤ descSize) {h : NsHeader} (hheader : nsReadHeader image = .ok h)
    (hroot : h.root ≠ 0) {key : UInt64} {o : Option Bytes}
    (hlookup : lookup (nsFetch image h.pageCount descSize) nsMaxDepth h.root key = some o)
    (more : Nat) : nimLookup (nsMaxDepth + more) image descSize key = some (answer o) := by
  obtain ⟨hlen, t, hload, hpages, hwidth, hcommitted⟩ := nsReadHeader_ok descSize hheader
  rw [nimLookup, hload]
  dsimp only
  rw [hcommitted, if_neg hroot]
  refine NimCowBTree.descend_add (t.descend_eq (hwidth ▸ hD) (hpages ▸ hlen) ?_) more
  rw [hpages, hwidth]
  exact hlookup

theorem nimLookup_add {key : UInt64} {rounds : Nat} {r : Except (Fault NimError) Bytes}
    (h : nimLookup rounds image descSize key = some r) (more : Nat) :
    nimLookup (rounds + more) image descSize key = some r := by
  rw [nimLookup] at h ⊢
  cases hload : nimLoadCowBTree image descSize with
  | error e => rw [hload] at h; exact h
  | ok t =>
    rw [hload] at h
    dsimp only at h ⊢
    split at h
    · next hroot => rw [if_pos hroot]; exact h
    · next hroot => rw [if_neg hroot]; exact t.descend_add h more

theorem nimLookup_of_root_eq_zero {h : NsHeader} (hheader : nsReadHeader image = .ok h)
    (hroot : h.root = 0) (rounds : Nat) (key : UInt64) :
    nimLookup rounds image descSize key = some (answer none) := by
  obtain ⟨-, t, hload, -, -, hcommitted⟩ := nsReadHeader_ok descSize hheader
  rw [nimLookup, hload]
  exact if_pos (hcommitted.trans hroot)

theorem searchable_of_separated (hD : 8 ≤ descSize) {h : NsHeader}
    (hheader : nsReadHeader image = .ok h) (hroot : h.root ≠ 0) {es : List NsEntry}
    (hes : entries (nsFetch image h.pageCount descSize) nsMaxDepth h.root = some es)
    (hasc : Ascending es)
    (hsep : Separated (nsFetch image h.pageCount descSize) nsMaxDepth h.root) :
    Searchable image descSize es := by
  intro key
  have hord := nsFetch_ordered image h.pageCount descSize
  obtain ⟨o, ho, hsound⟩ := lookup_sound hord hes key
  refine ⟨nsMaxDepth + 0, ?_⟩
  rw [nimLookup_eq hD hheader hroot ho 0]
  congr 2
  cases hfind : es.find? fun e => e.1 = key with
  | some e =>
    obtain rfl : e.1 = key := by simpa using List.find?_some hfind
    have hmem := List.mem_of_find?_eq_some hfind
    have := (lookup_iff_separated hord hes hasc).mpr hsep e.1 e.2 hmem
    exact Option.some.inj (ho.symm.trans this)
  | none =>
    cases o with
    | none => rfl
    | some v =>
      have := List.find?_eq_none.mp hfind (key, v) (hsound v rfl)
      exact absurd (decide_eq_true rfl) this

/-! ### Two leaves under one root -/

def sampleEntry (key : UInt64) : NsEntry := (key, List.replicate nsDescSizeTypeB 7)

/-- Pages of a root over two leaves, with one separator. -/
def twoLeafPages (separator : UInt64) : List Bytes :=
  [leafPage [sampleEntry 1, sampleEntry 2], leafPage [sampleEntry 3, sampleEntry 4],
    internalPage [separator] [1, 2]]

def twoLeafImage (separator : UInt64) : Bytes :=
  headerBytes 3 1 nsFlagLeafTypeB 4 ++
    (List.replicate (nsPageSize - nsHeaderTotal) 0 ++ (twoLeafPages separator).flatten)

theorem length_twoLeafPages (separator : UInt64) :
    ∀ p ∈ twoLeafPages separator, p.length = nsPageSize := by
  intro p hp
  simp only [twoLeafPages, List.mem_cons, List.not_mem_nil, or_false] at hp
  rcases hp with rfl | rfl | rfl
  · exact length_nodePage (by decide)
  · exact length_nodePage (by decide)
  · refine length_nodePage ?_
    rw [List.length_append, length_words, length_words]
    exact Nat.le_of_ble_eq_true rfl

theorem nsReadHeader_twoLeafImage (separator : UInt64) :
    nsReadHeader (twoLeafImage separator) = .ok ⟨3, 1, nsFlagLeafTypeB, 4⟩ := by
  have hlen : nsHeaderTotal + (List.replicate (nsPageSize - nsHeaderTotal) (0 : UInt8) ++
      (twoLeafPages separator).flatten).length = 4 * nsPageSize := by
    rw [List.length_append, List.length_replicate,
      length_flatten_of_forall (length_twoLeafPages separator)]
    change nsHeaderTotal + (nsPageSize - nsHeaderTotal + 3 * nsPageSize) = _
    decide
  exact nsReadHeader_headerBytes (by rw [hlen]; decide) (by rw [hlen]; decide)

theorem nsFetch_twoLeafImage (separator : UInt64) :
    nsFetch (twoLeafImage separator) 4 nsDescSizeTypeB =
      fetchPages nsDescSizeTypeB (twoLeafPages separator) := by
  funext page
  have himage : twoLeafImage separator =
      headerBytes 3 1 nsFlagLeafTypeB 4 ++ List.replicate (nsPageSize - nsHeaderTotal) 0 ++
        (twoLeafPages separator).flatten ++ [] := by
    rw [twoLeafImage, List.append_nil, List.append_assoc]
  rw [himage]
  refine nsFetch_eq_fetchPages ?_ (length_twoLeafPages separator) rfl page
  rw [List.length_append, length_headerBytes, List.length_replicate]
  decide

theorem fetchPages_twoLeafPages (separator : UInt64) :
    fetchPages nsDescSizeTypeB (twoLeafPages separator) 1 =
        some (.leaf [sampleEntry 1, sampleEntry 2]) ∧
      fetchPages nsDescSizeTypeB (twoLeafPages separator) 2 =
        some (.leaf [sampleEntry 3, sampleEntry 4]) ∧
      fetchPages nsDescSizeTypeB (twoLeafPages separator) 3 =
        some (.branch [separator] [1, 2]) := by
  have hget₁ : (twoLeafPages separator)[(1 : UInt64).toNat - 1]? =
      some (leafPage [sampleEntry 1, sampleEntry 2]) := rfl
  have hget₂ : (twoLeafPages separator)[(2 : UInt64).toNat - 1]? =
      some (leafPage [sampleEntry 3, sampleEntry 4]) := rfl
  have hget₃ : (twoLeafPages separator)[(3 : UInt64).toNat - 1]? =
      some (internalPage [separator] [1, 2]) := rfl
  refine ⟨?_, ?_, ?_⟩
  · rw [fetchPages, if_neg (by decide), hget₁, Option.bind_some]
    exact pageNode_leafPage (by decide) (by decide) (by decide) (by unfold Ascending; decide)
  · rw [fetchPages, if_neg (by decide), hget₂, Option.bind_some]
    exact pageNode_leafPage (by decide) (by decide) (by decide) (by unfold Ascending; decide)
  · rw [fetchPages, if_neg (by decide), hget₃, Option.bind_some]
    exact pageNode_internalPage (by decide) (Nat.le_of_ble_eq_true rfl) rfl
      (List.pairwise_singleton _ _)

theorem nsCollect_twoLeafImage (separator : UInt64) :
    nsCollect (twoLeafImage separator) nsDescSizeTypeB =
      .ok [sampleEntry 1, sampleEntry 2, sampleEntry 3, sampleEntry 4] := by
  obtain ⟨h₁, h₂, h₃⟩ := fetchPages_twoLeafPages separator
  refine (nsCollect_ok_iff (by decide)).mpr ⟨_, nsReadHeader_twoLeafImage separator,
    .inr ⟨by decide, by unfold Ascending; decide, [3, 1, 2], ?_, ?_, by decide⟩⟩
  · rw [nsFetch_twoLeafImage, nsMaxDepth, entries_branch h₃, List.mapM_cons, List.mapM_cons,
      List.mapM_nil, entries_leaf h₁, entries_leaf h₂]
    rfl
  · rw [nsFetch_twoLeafImage, nsMaxDepth, visited_branch h₃, List.mapM_cons, List.mapM_cons,
      List.mapM_nil, visited_leaf h₁, visited_leaf h₂]
    rfl

/-- The searching reader agrees with the enumerating one on an image the latter accepts exactly if
the separators separate. -/
theorem nimLookup_iff_separated (hD : descSize = nsDescSizeTypeA ∨ descSize = nsDescSizeTypeB)
    {es : List NsEntry} (haccept : nsCollect image descSize = .ok es) :
    Searchable image descSize es ↔ SeparatorsHold image descSize := by
  have hwide : 8 ≤ descSize := by
    rcases hD with rfl | rfl
    · decide
    · decide
  obtain ⟨h, hheader, hcase⟩ := (nsCollect_ok_iff hwide).mp haccept
  rcases hcase with ⟨hroot, rfl⟩ | ⟨hroot, hasc, vs, hes, -, -⟩
  · -- without a root there is nothing to find and nothing to separate
    refine ⟨fun _ h' hheader' hroot' => ?_, fun _ key => ⟨0, ?_⟩⟩
    · cases hheader.symm.trans hheader'
      exact absurd hroot hroot'
    · exact nimLookup_of_root_eq_zero hheader hroot 0 key
  constructor
  · intro hsearch h' hheader' _
    cases hheader.symm.trans hheader'
    have hord := nsFetch_ordered image h.pageCount descSize
    refine (lookup_iff_separated hord hes hasc).mp fun k v hkv => ?_
    obtain ⟨o, ho, -⟩ := lookup_sound hord hes k
    obtain ⟨rounds, hrounds⟩ := hsearch k
    rw [find?_key hasc hkv] at hrounds
    have hfirst := nimLookup_add hrounds nsMaxDepth
    have hsecond := nimLookup_eq hwide hheader hroot ho rounds
    rw [Nat.add_comm] at hsecond
    have hanswer : answer o = .ok v := Option.some.inj (hsecond.symm.trans hfirst)
    cases o with
    | none => cases hanswer
    | some v' =>
      cases hanswer
      exact ho
  · intro hsep
    exact searchable_of_separated hwide hheader hroot hes hasc (hsep h hheader hroot)

/-- A separator that is too high for the leaf on its right: the entry is enumerated and not
found. -/
theorem nimLookup_misplaced :
    nsCollect (twoLeafImage 100) nsDescSizeTypeB =
        .ok [sampleEntry 1, sampleEntry 2, sampleEntry 3, sampleEntry 4] ∧
      nimLookup nsMaxDepth (twoLeafImage 100) nsDescSizeTypeB 3 =
        some (.error (.error .keyNotFound)) := by
  obtain ⟨h₁, -, h₃⟩ := fetchPages_twoLeafPages 100
  refine ⟨nsCollect_twoLeafImage 100, ?_⟩
  refine nimLookup_eq (by decide) (nsReadHeader_twoLeafImage 100) (by decide) (o := none) ?_ 0
  -- three is below the separator, so the descent goes left
  have hleft : childIndex [(100 : UInt64)] 3 = 0 := by decide
  rw [nsFetch_twoLeafImage, nsMaxDepth, lookup, h₃]
  dsimp only
  rw [hleft, List.getElem?_cons_zero, Option.bind_some, lookup, h₁]
  rfl

/-- With the smallest key of the right leaf as the separator, every entry is found. -/
theorem nimLookup_iff_separated_twoLeaves :
    Searchable (twoLeafImage 3) nsDescSizeTypeB
      [sampleEntry 1, sampleEntry 2, sampleEntry 3, sampleEntry 4] := by
  obtain ⟨h₁, h₂, h₃⟩ := fetchPages_twoLeafPages 3
  refine (nimLookup_iff_separated (.inr rfl) (nsCollect_twoLeafImage 3)).mpr
    fun h hheader _ => ?_
  have heq := (nsReadHeader_twoLeafImage 3).symm.trans hheader
  obtain rfl := Except.ok.inj heq
  rw [nsFetch_twoLeafImage, nsMaxDepth, Separated, h₃]
  intro i c hc
  have hleaf : ∀ {es : List NsEntry},
      fetchPages nsDescSizeTypeB (twoLeafPages 3) c = some (.leaf es) →
      (∀ e ∈ es, Between [(3 : UInt64)] i e.1) →
      Separated (fetchPages nsDescSizeTypeB (twoLeafPages 3)) 15 c ∧
        ∀ es', entries (fetchPages nsDescSizeTypeB (twoLeafPages 3)) 15 c = some es' →
          ∀ e ∈ es', Between [(3 : UInt64)] i e.1 := by
    intro es hc hbetween
    rw [Separated, hc, entries_leaf hc]
    refine ⟨trivial, fun es' hes' => ?_⟩
    rwa [← Option.some.inj hes']
  have hkeys : [(3 : UInt64)].Pairwise (· < ·) := List.pairwise_singleton _ _
  have hleft : ∀ e ∈ [sampleEntry 1, sampleEntry 2], childIndex [(3 : UInt64)] e.1 = 0 := by decide
  have hright : ∀ e ∈ [sampleEntry 3, sampleEntry 4], childIndex [(3 : UInt64)] e.1 = 1 := by decide
  rcases i with _ | _ | i
  · cases hc
    exact hleaf h₁ fun e he => (between_iff hkeys (Nat.zero_le _)).mpr (hleft e he)
  · cases hc
    exact hleaf h₂ fun e he => (between_iff hkeys (le_refl _)).mpr (hright e he)
  · cases hc

end Image

end Wasmsnapshot
