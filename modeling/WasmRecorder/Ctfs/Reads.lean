import WasmRecorder.Ctfs.BlockMapping
import WasmRecorder.Lib.Fallible

/-!
# Reading internal files

* `readFile_append` — bytes behind the end of a container change no read that succeeds without
  them.
* `readFile_iff` — a read panics exactly if the entry asks for a slice that cannot be made; every
  other read reports an error or returns the contents of the resolved blocks, cut to the size of
  the entry.
-/

namespace Ctfs

open Cached Checked Fallible LittleEndian Slice

/-! ### Opened containers -/

/-- What is known of a container that was opened. -/
structure Opened (img : Image) (c : Container) : Prop extends c.Fits img where
  block0 : c.block0 = img.bytes.take c.blockSize.toNat
  le_length : c.blockSize.toNat ≤ img.bytes.length
  entries : ∀ i < c.entryCount.toNat, c.entryBase + (i + 1) * fileEntrySize ≤ c.blockSize.toNat

/-- The container that `open` builds from the header, before it looks for the entry array. -/
def header (img : Image) : Container :=
  let hdr := img.bytes.take headerSize
  let blockSize := (u32At hdr 8).toUInt64
  let fileSize := UInt64.ofNat img.bytes.length
  { version := hdr.getD 5 0, encryption := hdr.getD 6 0, maxShards := hdr.getD 7 0
    blockSize, fileSize
    partialTailBytes := fileSize % blockSize, nextFreeBlock := fileSize / blockSize
    block0 := img.bytes.take blockSize.toNat }

/-- The number of entries behind an offset. -/
def Container.countAt (c : Container) (maxRootEntries base : Nat) : Int :=
  if maxRootEntries = 0 then ((c.blockSize.toNat : Int) - base).tdiv fileEntrySize
  else maxRootEntries

theorem Container.tryCandidates_ok {c c' : Container} {maxRootEntries : Nat} {bases : List Nat}
    {reasons : List Reason} (h : c.tryCandidates maxRootEntries bases reasons = .ok c') :
    ∃ base, c' = { c with entryBase := base, entryCount := c.countAt maxRootEntries base } ∧
      base + c.countAt maxRootEntries base * fileEntrySize ≤ c.blockSize.toNat := by
  induction bases generalizing reasons with
  | nil => cases h
  | cons base rest ih =>
    rw [Container.tryCandidates] at h
    change (if base + c.countAt maxRootEntries base * fileEntrySize > c.blockSize.toNat then _
      else _) = _ at h
    split at h
    · exact ih h
    · next hle =>
      obtain ⟨valid, -, h⟩ := bind_eq_ok.mp h
      cases valid with
      | error reason => exact ih h
      | ok _ =>
        cases h
        exact ⟨base, rfl, not_lt.mp hle⟩

theorem open_ok {img : Image} {c : Container} (h : «open» img = .ok c) :
    headerSize ≤ img.bytes.length ∧ (header img).blockSize % 8 = 0 ∧
      headerSize ≤ (header img).blockSize.toNat ∧
      (header img).blockSize.toNat ≤ img.bytes.length ∧
      (header img).locateEntryArray (u32At (img.bytes.take headerSize) 12).toNat = .ok c := by
  rw [«open»] at h
  split at h
  · cases h
  next hsize =>
  dsimp only at h
  split at h
  · cases h
  split at h
  · cases h
  split at h
  · cases h
  next hblock =>
  rw [not_or, not_or, not_not, not_lt] at hblock
  obtain ⟨block0, hread, hlocate⟩ := bind_eq_ok.mp h
  rw [Image.readAt] at hread
  split at hread
  · next hle =>
    cases hread
    rw [UInt64.toNat_zero, Nat.zero_add, slice_zero] at hlocate
    rw [UInt64.toNat_zero, Nat.zero_add] at hle
    exact ⟨not_lt.mp hsize, hblock.2.1, hblock.2.2, hle, hlocate⟩
  · cases hread

theorem opened {img : Image} {c : Container} (h : «open» img = .ok c) : Opened img c := by
  obtain ⟨-, hmod, hle, hlen, hlocate⟩ := open_ok h
  obtain ⟨base, rfl, hentries⟩ := Container.tryCandidates_ok hlocate
  have hlength : (UInt64.ofNat img.bytes.length).toNat = img.bytes.length :=
    UInt64.toNat_ofNat_of_lt' (lt_trans img.length_lt (by decide))
  refine { blockSize_mod := hmod, le_blockSize := hle, blockSize_lt := ?_, nextFreeBlock := ?_,
           block0 := rfl, le_length := hlen, entries := fun i hi => ?_ }
  · change (u32At (img.bytes.take headerSize) 8).toUInt64.toNat < _
    rw [UInt32.toNat_toUInt64]
    exact (u32At _ 8).toNat_lt
  · change (UInt64.ofNat img.bytes.length / (header img).blockSize).toNat = _
    rw [UInt64.toNat_div, hlength]
  · change i < ((header img).countAt _ base).toNat at hi
    change base + (i + 1) * fileEntrySize ≤ (header img).blockSize.toNat
    rw [fileEntrySize] at hentries ⊢
    omega

/-! ### The blocks of a file -/

theorem Container.dataBlocks_eq (c : Container) (maxAlloc : Nat) (img : Image) (e : FileEntry) :
    c.dataBlocks maxAlloc img e = (do
      let n := (e.size + c.blockSize - 1) / c.blockSize
      let _ ← make maxAlloc 8 n.toNat (0 : UInt64)
      (List.range n.toNat).mapM fun i =>
        c.resolveDataBlock (c.readBlock img) e (UInt64.ofNat i)) := by
  rw [Container.dataBlocks]
  have htracks := Tracks.mapM (fun i => c.resolveDataBlock_tracks img e (UInt64.ofNat i))
    (List.range ((e.size + c.blockSize - 1) / c.blockSize).toNat)
  dsimp only
  rw [← htracks.run (c.consistent_nil img)]
  refine bind_congr fun _ => ?_
  cases StateT.run _ _ with
  | error f => rfl
  | ok r => rfl

/-! ### Bytes behind the end -/

section Append

variable {img img' : Image} {c c' : Container} {tail : Bytes}

theorem Image.readAt_append (happ : img'.bytes = img.bytes ++ tail) {n : Nat} {off : UInt64}
    {e e' : Error} {b : Bytes} (h : img.readAt n off e = .ok b) :
    img'.readAt n off e' = .ok b := by
  rw [Image.readAt] at h ⊢
  split at h
  · next hle =>
    rw [if_pos (by rw [happ, List.length_append]; omega), happ, slice,
      List.take_append_of_le_length hle]
    exact h
  · cases h

theorem Container.readBlock_append (happ : img'.bytes = img.bytes ++ tail)
    (hsize : c'.blockSize = c.blockSize) (hblocks : c.nextFreeBlock ≤ c'.nextFreeBlock)
    {blk : UInt64} {b : Bytes} (h : c.readBlock img blk = .ok b) :
    c'.readBlock img' blk = .ok b := by
  rw [Container.readBlock] at h ⊢
  split at h
  · cases h
  · next hblk =>
    rw [not_or, UInt64.not_le] at hblk
    rw [if_neg (not_or.mpr ⟨hblk.1, UInt64.not_le.mpr (UInt64.lt_of_lt_of_le hblk.2 hblocks)⟩),
      hsize]
    exact Image.readAt_append happ h

theorem Container.ascend_mono {e : FileEntry} {blockIdx : UInt64}
    {block block' : UInt64 → Outcome Bytes} (hsize : c'.blockSize = c.blockSize)
    (hblock : ∀ blk b, block blk = .ok b → block' blk = .ok b) {above : Nat} {idx cur : UInt64}
    {r : UInt64 × Nat × UInt64}
    (h : c.ascend block e blockIdx above idx cur = .ok r) :
    c'.ascend block' e blockIdx above idx cur = .ok r := by
  have husable : c'.usable = c.usable := by rw [Container.usable, Container.usable, hsize]
  induction above generalizing idx cur with
  | zero =>
    rw [Container.ascend.eq_def] at h ⊢
    rw [husable]
    exact h
  | succ above ih =>
    rw [Container.ascend.eq_def] at h ⊢
    dsimp only at h ⊢
    rw [husable]
    split at h
    · next hlt =>
      rw [if_pos hlt]
      exact h
    · next hge =>
      rw [if_neg hge]
      obtain ⟨blk, hblk, h⟩ := bind_eq_ok.mp h
      obtain ⟨chain, hchain, h⟩ := bind_eq_ok.mp h
      refine bind_eq_ok.mpr ⟨blk, hblock _ _ hblk, bind_eq_ok.mpr ⟨chain, hchain, ?_⟩⟩
      split at h
      · cases h
      · next hnull =>
        rw [if_neg hnull]
        exact ih h

theorem Container.descend_mono {e : FileEntry} {blockIdx : UInt64}
    {block block' : UInt64 → Outcome Bytes} (hsize : c'.blockSize = c.blockSize)
    (hblocks : c.nextFreeBlock ≤ c'.nextFreeBlock)
    (hblock : ∀ blk b, block blk = .ok b → block' blk = .ok b) {below : Nat} {idx cur b : UInt64}
    (h : c.descend block e blockIdx below idx cur = .ok b) :
    c'.descend block' e blockIdx below idx cur = .ok b := by
  have husable : c'.usable = c.usable := by rw [Container.usable, Container.usable, hsize]
  induction below generalizing idx cur with
  | zero =>
    rw [Container.descend] at h ⊢
    obtain ⟨blk, hblk, h⟩ := bind_eq_ok.mp h
    obtain ⟨p, hp, h⟩ := bind_eq_ok.mp h
    refine bind_eq_ok.mpr ⟨blk, hblock _ _ hblk, bind_eq_ok.mpr ⟨p, hp, ?_⟩⟩
    split at h
    · cases h
    · next hnull =>
      split at h
      · cases h
      · next hlt =>
        rw [if_neg hnull, if_neg fun hle => hlt (UInt64.le_trans hblocks hle)]
        exact h
  | succ below ih =>
    rw [Container.descend] at h ⊢
    rw [husable]
    obtain ⟨blk, hblk, h⟩ := bind_eq_ok.mp h
    obtain ⟨child, hchild, h⟩ := bind_eq_ok.mp h
    refine bind_eq_ok.mpr ⟨blk, hblock _ _ hblk, bind_eq_ok.mpr ⟨child, hchild, ?_⟩⟩
    split at h
    · cases h
    · next hnull =>
      rw [if_neg hnull]
      exact ih h

theorem Container.dataBlocks_append (happ : img'.bytes = img.bytes ++ tail)
    (hsize : c'.blockSize = c.blockSize) (hblocks : c.nextFreeBlock ≤ c'.nextFreeBlock)
    {maxAlloc : Nat} {e : FileEntry} {blocks : List UInt64}
    (h : c.dataBlocks maxAlloc img e = .ok blocks) :
    c'.dataBlocks maxAlloc img' e = .ok blocks := by
  rw [Container.dataBlocks_eq] at h ⊢
  rw [hsize]
  obtain ⟨room, hroom, h⟩ := bind_eq_ok.mp h
  refine bind_eq_ok.mpr ⟨room, hroom, mapM_ok_mono (fun i b hb => ?_) h⟩
  have hblock : ∀ blk b, c.readBlock img blk = .ok b → c'.readBlock img' blk = .ok b :=
    fun _ _ => Container.readBlock_append happ hsize hblocks
  obtain ⟨⟨idx, level, cur⟩, hup, hdown⟩ := bind_eq_ok.mp hb
  exact bind_eq_ok.mpr ⟨(idx, level, cur), Container.ascend_mono hsize hblock hup,
    Container.descend_mono hsize hblocks hblock hdown⟩

theorem Container.fill_append (happ : img'.bytes = img.bytes ++ tail)
    (hsize : c'.blockSize = c.blockSize) {e : FileEntry} {i : Nat} {blocks : List UInt64}
    {out r : Bytes} (h : c.fill img e i blocks out = .ok r) :
    c'.fill img' e i blocks out = .ok r := by
  induction blocks generalizing i out with
  | nil => exact h
  | cons blk blocks ih =>
    rw [Container.fill] at h ⊢
    rw [hsize]
    obtain ⟨dst, hdst, h⟩ := bind_eq_ok.mp h
    obtain ⟨src, hsrc, h⟩ := bind_eq_ok.mp h
    obtain ⟨out', hout', h⟩ := bind_eq_ok.mp h
    exact bind_eq_ok.mpr ⟨dst, hdst, bind_eq_ok.mpr ⟨src, Image.readAt_append happ hsrc,
      bind_eq_ok.mpr ⟨out', hout', ih h⟩⟩⟩

theorem Container.entryAt_congr (hblock0 : c'.block0 = c.block0)
    (hbase : c'.entryBase = c.entryBase) (i : Nat) : c'.entryAt i = c.entryAt i := by
  rw [Container.entryAt, Container.entryAt, hblock0, hbase]

theorem Container.entriesFrom_congr (hentry : ∀ i, c'.entryAt i = c.entryAt i) (n i : Nat) :
    c'.entriesFrom n i = c.entriesFrom n i := by
  induction n generalizing i with
  | zero => rfl
  | succ n ih => rw [Container.entriesFrom, Container.entriesFrom, hentry, ih]

theorem Container.findFrom_congr (hentry : ∀ i, c'.entryAt i = c.entryAt i) (name : Bytes)
    (want : UInt64) (n i : Nat) : c'.findFrom name want n i = c.findFrom name want n i := by
  induction n generalizing i with
  | zero => rfl
  | succ n ih =>
    rw [Container.findFrom, Container.findFrom, hentry]
    simp only [ih]

theorem open_append (happ : img'.bytes = img.bytes ++ tail) (h : «open» img = .ok c)
    (h' : «open» img' = .ok c') (hbase : c'.entryBase = c.entryBase) :
    c'.blockSize = c.blockSize ∧ c.nextFreeBlock ≤ c'.nextFreeBlock ∧
      c'.entryCount = c.entryCount ∧ ∀ i, c'.entryAt i = c.entryAt i := by
  obtain ⟨hlen, -, -, -, hlocate⟩ := open_ok h
  obtain ⟨-, -, -, -, hlocate'⟩ := open_ok h'
  have hopened := opened h
  have hopened' := opened h'
  obtain ⟨base, rfl, -⟩ := Container.tryCandidates_ok hlocate
  obtain ⟨base', rfl, -⟩ := Container.tryCandidates_ok hlocate'
  have hhdr : img'.bytes.take headerSize = img.bytes.take headerSize := by
    rw [happ, List.take_append_of_le_length hlen]
  have hsize : (header img').blockSize = (header img).blockSize := by
    change (u32At (img'.bytes.take headerSize) 8).toUInt64 = _
    rw [hhdr]
    rfl
  have hbase' : base' = base := hbase
  refine ⟨hsize, ?_, ?_, Container.entryAt_congr ?_ hbase⟩
  · rw [UInt64.le_iff_toNat_le, hopened.nextFreeBlock, hopened'.nextFreeBlock]
    change _ ≤ _ / (header img').blockSize.toNat
    rw [hsize, happ, List.length_append]
    exact Nat.div_le_div_right (Nat.le_add_right _ _)
  · change (header img').countAt _ base' = (header img).countAt _ base
    rw [Container.countAt, Container.countAt, hhdr, hsize, hbase']
  · rw [hopened.block0, hopened'.block0]
    change img'.bytes.take (header img').blockSize.toNat = _
    rw [hsize, happ, List.take_append_of_le_length hopened.le_length]

end Append

/-- **Bytes behind the end of a container do not matter.** A container that also opens with bytes
appended to it, with its entry array in the same place, lists the same files, and every file that
can be read without those bytes is read the same with them. -/
theorem readFile_append {img img' : Image} {tail : Bytes} (happ : img'.bytes = img.bytes ++ tail)
    {c c' : Container} (h : «open» img = .ok c) (h' : «open» img' = .ok c')
    (hbase : c'.entryBase = c.entryBase) :
    c'.names = c.names ∧ ∀ (maxAlloc : Nat) (name out : Bytes),
      c.readFile maxAlloc img name = .ok out → c'.readFile maxAlloc img' name = .ok out := by
  obtain ⟨hsize, hblocks, hcount, hentry⟩ := open_append happ h h' hbase
  refine ⟨?_, fun maxAlloc name out hread => ?_⟩
  · rw [Container.names, Container.names, hcount, Container.entriesFrom_congr hentry]
  · obtain ⟨e, hfind, hread⟩ := bind_eq_ok.mp hread
    have hfind' : c'.find name = .ok e := by
      rw [← hfind, Container.find, Container.find, hcount]
      simp only [Container.findFrom_congr hentry]
    refine bind_eq_ok.mpr ⟨e, hfind', ?_⟩
    rw [Container.readEntry] at hread ⊢
    obtain ⟨room, hroom, hread⟩ := bind_eq_ok.mp hread
    refine bind_eq_ok.mpr ⟨room, hroom, ?_⟩
    split at hread
    · next hzero =>
      rw [if_pos hzero]
      exact hread
    · next hpos =>
      rw [if_neg hpos]
      obtain ⟨blocks, hdata, hfill⟩ := bind_eq_ok.mp hread
      exact bind_eq_ok.mpr ⟨blocks, Container.dataBlocks_append happ hsize hblocks hdata,
        Container.fill_append happ hsize hfill⟩

/-- The container of two data blocks with a partial block behind it. -/
def twoBlocksTail : Image where
  bytes := twoBlocks.bytes ++ [7, 7, 7]
  length_lt := by decide +kernel

theorem readFile_append_twoBlocks :
    ∃ c c', «open» twoBlocks = .ok c ∧ «open» twoBlocksTail = .ok c' ∧ c'.names = c.names ∧
      c'.readFile (2 ^ 48) twoBlocksTail [97] =
        .ok (List.replicate 64 1 ++ List.replicate 6 2) := by
  have hopen : «open» twoBlocks = .ok twoBlocksContainer := by decide +kernel
  have hopen' : «open» twoBlocksTail =
      .ok { twoBlocksContainer with fileSize := 259, partialTailBytes := 3 } := by decide +kernel
  obtain ⟨hnames, hread⟩ := readFile_append rfl hopen hopen' rfl
  exact ⟨_, _, hopen, hopen', hnames, hread _ _ _ (by decide +kernel)⟩

/-! ### Reads that panic -/

section Panic

variable {img : Image} {c : Container}

/-- The bytes of a list of blocks. -/
def Container.contents (c : Container) (img : Image) (blocks : List UInt64) : Bytes :=
  (blocks.map fun blk => slice img.bytes (blk.toNat * c.blockSize.toNat)
    (blk.toNat * c.blockSize.toNat + c.blockSize.toNat)).flatten

theorem Container.contents_cons (c : Container) (img : Image) (blk : UInt64)
    (blocks : List UInt64) :
    c.contents img (blk :: blocks) = c.contents img [blk] ++ c.contents img blocks := by
  rw [Container.contents, Container.contents, Container.contents, ← List.flatten_append,
    ← List.map_append, List.singleton_append]

theorem Opened.length_contents (h : Opened img c) {blocks : List UInt64}
    (hlt : ∀ blk ∈ blocks, blk < c.nextFreeBlock) :
    (c.contents img blocks).length = blocks.length * c.blockSize.toNat := by
  induction blocks with
  | nil => rw [List.length_nil, Nat.zero_mul]; rfl
  | cons blk blocks ih =>
    rw [List.forall_mem_cons] at hlt
    obtain ⟨-, hle⟩ := h.block_le hlt.1
    rw [Container.contents_cons, List.length_append, ih hlt.2, List.length_cons, Nat.succ_mul,
      Container.contents, List.map_singleton, List.flatten_singleton, length_slice hle]
    omega

theorem Opened.entryAt (h : Opened img c) {i : Nat} (hi : i < c.entryCount.toNat) :
    ∃ e, c.entryAt i = .ok e := by
  have hle := h.entries i hi
  have hlen : c.block0.length = c.blockSize.toNat := by
    rw [h.block0, List.length_take, Nat.min_eq_left h.le_length]
  rw [fileEntrySize] at hle
  rw [Container.entryAt, fileEntrySize, uint64_eq (by omega), uint64_eq (by omega),
    uint64_eq (by omega)]
  exact ⟨_, rfl⟩

theorem Opened.findFrom (h : Opened img c) (name : Bytes) (want : UInt64) {n i : Nat}
    (hn : i + n ≤ c.entryCount.toNat) :
    (∃ e, c.findFrom name want n i = .ok e) ∨ ∃ err, c.findFrom name want n i = fail err := by
  induction n generalizing i with
  | zero => exact .inr ⟨_, rfl⟩
  | succ n ih =>
    obtain ⟨e, he⟩ := h.entryAt (show i < c.entryCount.toNat by omega)
    rw [Container.findFrom, he]
    change (∃ e', (if e.name = want then .ok e else c.findFrom name want n (i + 1)) = .ok e') ∨
      ∃ err, (if e.name = want then .ok e else c.findFrom name want n (i + 1)) = fail err
    split
    · exact .inl ⟨e, rfl⟩
    · exact ih (by omega)

theorem Opened.find (h : Opened img c) (name : Bytes) :
    (∃ e, c.find name = .ok e) ∨ ∃ err, c.find name = fail err := by
  rw [Container.find]
  cases encodeName name with
  | error e => exact .inr ⟨_, rfl⟩
  | ok want => exact h.findFrom name want (by rw [Nat.zero_add])

/-- The blocks of an entry whose sizes do not wrap: all resolved, inside the container, or an
error. -/
theorem Opened.resolveAll (h : Opened img c) (e : FileEntry) {n : Nat}
    (hn : n * c.blockSize.toNat < 2 ^ 64) :
    (∃ blocks, ((List.range n).mapM fun i => c.resolveDataBlock (c.readBlock img) e
        (UInt64.ofNat i)) = .ok blocks ∧ blocks.length = n ∧
        ∀ blk ∈ blocks, blk < c.nextFreeBlock) ∨
      ∃ err, ((List.range n).mapM fun i => c.resolveDataBlock (c.readBlock img) e
        (UInt64.ofNat i)) = fail err := by
  induction n with
  | zero => exact .inl ⟨[], rfl, rfl, List.forall_mem_nil _⟩
  | succ n ih =>
    have hpos : 0 < c.blockSize.toNat := lt_of_lt_of_le (by decide) h.le_blockSize
    rw [Nat.succ_mul] at hn
    have hidx : (UInt64.ofNat n).toNat = n := by
      refine UInt64.toNat_ofNat_of_lt' (lt_of_le_of_lt (Nat.le_mul_of_pos_right n hpos) ?_)
      change _ < 2 ^ 64
      omega
    rw [List.range_succ, List.mapM_append]
    rcases ih (by omega) with ⟨blocks, hblocks, hlen, hlt⟩ | ⟨err, herr⟩
    · rw [hblocks]
      have hagrees := h.resolveDataBlock_agrees e (i := UInt64.ofNat n) (by rw [hidx]; omega)
      rcases hagrees with ⟨hvalid, b, hb, hval⟩ | ⟨-, err, herr⟩
      · refine .inl ⟨blocks ++ [b], ?_, by rw [List.length_append, hlen]; rfl, fun blk hblk => ?_⟩
        · rw [List.mapM_cons, hb]
          rfl
        · rcases List.mem_append.mp hblk with hblk | hblk
          · exact hlt blk hblk
          · rw [List.mem_singleton.mp hblk, UInt64.lt_iff_toNat_lt, hval]
            exact hvalid.2.2
      · refine .inr ⟨err, ?_⟩
        rw [List.mapM_cons, herr]
        rfl
    · exact .inr ⟨err, by rw [herr]; rfl⟩

theorem Opened.fill_cons (h : Opened img c) {e : FileEntry} {blk : UInt64} {blocks : List UInt64}
    {i : Nat} {out : Bytes} (hlt : blk < c.nextFreeBlock) (hsize : e.size.toNat < 2 ^ 63)
    (hout : out.length = e.size.toNat) (hi : i * c.blockSize.toNat < e.size.toNat) :
    c.fill img e i (blk :: blocks) out = c.fill img e (i + 1) blocks
      (out.take (i * c.blockSize.toNat) ++
        (c.contents img [blk]).take (e.size.toNat - i * c.blockSize.toNat) ++
        out.drop (i * c.blockSize.toNat + c.blockSize.toNat)) := by
  have hbs := h.blockSize_lt
  have hpos : 0 < c.blockSize.toNat := lt_of_lt_of_le (by decide) h.le_blockSize
  obtain ⟨hblk, hle⟩ := h.block_le hlt
  have hidx : (UInt64.ofNat i).toNat = i := by
    refine UInt64.toNat_ofNat_of_lt' (lt_of_le_of_lt (Nat.le_mul_of_pos_right i hpos) ?_)
    change _ < 2 ^ 64
    omega
  have hstart : (UInt64.ofNat i * c.blockSize).toNat = i * c.blockSize.toNat := by
    rw [UInt64.toNat_mul, hidx, Nat.mod_eq_of_lt (by omega)]
  have hnext : (UInt64.ofNat i * c.blockSize + c.blockSize).toNat =
      i * c.blockSize.toNat + c.blockSize.toNat := by
    rw [UInt64.toNat_add, hstart, Nat.mod_eq_of_lt (by omega)]
  have hend : (if e.size < UInt64.ofNat i * c.blockSize + c.blockSize then e.size
      else UInt64.ofNat i * c.blockSize + c.blockSize).toNat =
      min e.size.toNat (i * c.blockSize.toNat + c.blockSize.toNat) := by
    split
    · next hcut =>
      rw [UInt64.lt_iff_toNat_lt, hnext] at hcut
      omega
    · next hfull =>
      rw [UInt64.lt_iff_toNat_lt, hnext] at hfull
      omega
  have hcontents : c.contents img [blk] = slice img.bytes (blk.toNat * c.blockSize.toNat)
      (blk.toNat * c.blockSize.toNat + c.blockSize.toNat) := List.append_nil _
  generalize i * c.blockSize.toNat = start at *
  obtain ⟨w, hw⟩ : ∃ w, w = min (e.size.toNat - start) c.blockSize.toNat := ⟨_, rfl⟩
  have hlength : (slice out start (min e.size.toNat (start + c.blockSize.toNat))).length = w := by
    rw [length_slice (by omega)]
    omega
  have hsrc : slice img.bytes (blk.toNat * c.blockSize.toNat) (blk.toNat * c.blockSize.toNat + w) =
      (c.contents img [blk]).take (e.size.toNat - start) := by
    rw [hcontents, take_slice]
    congr 1
    omega
  have hwidth : ((c.contents img [blk]).take (e.size.toNat - start)).length = w := by
    rw [← hsrc, length_slice (by omega)]
    omega
  -- what lies behind the block is what lies behind the part of it that was read
  have hrest : out.drop (start + w) = out.drop (start + c.blockSize.toNat) := by
    rcases Nat.le_total (start + c.blockSize.toNat) e.size.toNat with hfull | hcut
    · congr 1
      omega
    · rw [List.drop_of_length_le (by omega), List.drop_of_length_le (by omega)]
  rw [Container.fill, hend, hstart, sub_eq (by omega) (by omega)]
  change (do
    let src ← img.readAt (slice out start (min e.size.toNat (start + c.blockSize.toNat))).length
      (blk * c.blockSize) _
    c.fill img e (i + 1) blocks (← put out start src)) = _
  rw [hlength, Image.readAt, hblk, if_pos (by omega), hsrc]
  change (do c.fill img e (i + 1) blocks (← put out start _)) = _
  rw [put_eq (by omega), hwidth, hrest]
  rfl

theorem Opened.fill (h : Opened img c) {e : FileEntry} {blocks : List UInt64} {i : Nat}
    {out : Bytes} (hlt : ∀ blk ∈ blocks, blk < c.nextFreeBlock) (hsize : e.size.toNat < 2 ^ 63)
    (hout : out.length = e.size.toNat)
    (hlast : blocks ≠ [] → (i + blocks.length - 1) * c.blockSize.toNat < e.size.toNat)
    (hcover : e.size.toNat ≤ (i + blocks.length) * c.blockSize.toNat) :
    c.fill img e i blocks out = .ok (out.take (i * c.blockSize.toNat) ++
      (c.contents img blocks).take (e.size.toNat - i * c.blockSize.toNat)) := by
  induction blocks generalizing i out with
  | nil =>
    rw [List.length_nil, Nat.add_zero] at hcover
    rw [List.take_of_length_le (by omega), Container.contents, List.map_nil, List.flatten_nil,
      List.take_nil, List.append_nil]
    rfl
  | cons blk blocks ih =>
    rw [List.forall_mem_cons] at hlt
    have hlen : i + (blk :: blocks).length - 1 = i + blocks.length := by
      rw [List.length_cons]
      omega
    have hin := hlast (List.cons_ne_nil _ _)
    rw [hlen] at hin
    have hi : i * c.blockSize.toNat < e.size.toNat :=
      lt_of_le_of_lt (Nat.mul_le_mul_right _ (Nat.le_add_right _ _)) hin
    have hhead : (c.contents img [blk]).length = c.blockSize.toNat := by
      rw [h.length_contents (List.forall_mem_singleton.mpr hlt.1), List.length_singleton,
        Nat.one_mul]
    have hmul : (i + 1) * c.blockSize.toNat =
        i * c.blockSize.toNat + c.blockSize.toNat := Nat.succ_mul _ _
    -- only the last block can be cut short
    have hnil : e.size.toNat ≤ i * c.blockSize.toNat + c.blockSize.toNat → blocks = [] := by
      intro hcut
      by_contra hne
      have hpos : i + 1 ≤ i + blocks.length := by
        have := List.length_pos_of_ne_nil hne
        omega
      have := Nat.mul_le_mul_right c.blockSize.toNat hpos
      omega
    have hlength : (out.take (i * c.blockSize.toNat)).length = i * c.blockSize.toNat := by
      rw [List.length_take]
      omega
    have hsucc : i + 1 + blocks.length = i + (blk :: blocks).length := by
      rw [List.length_cons]
      omega
    rw [h.fill_cons hlt.1 hsize hout hi, ih hlt.2 _ _ (by rw [hsucc]; exact hcover),
      c.contents_cons img blk blocks, hmul]
    · generalize i * c.blockSize.toNat = start at *
      rcases Nat.le_total (start + c.blockSize.toNat) e.size.toNat with hfull | hcut
      · have hwhole : (c.contents img [blk]).take (e.size.toNat - start) = c.contents img [blk] :=
          List.take_of_length_le (by omega)
        rw [hwhole, List.take_left' (by rw [List.length_append]; omega), List.take_append, hwhole,
          hhead, List.append_assoc]
        congr 4
        omega
      · rw [hnil hcut, List.drop_of_length_le (by omega), List.append_nil,
          List.take_of_length_le (by rw [List.length_append, hlength, List.length_take]; omega),
          show c.contents img [] = [] from rfl, List.append_nil, List.take_nil, List.append_nil]
    · rw [List.length_append, List.length_append, hlength, List.length_take, List.length_drop]
      omega
    · intro hne
      rw [hsucc, hlen]
      exact hin

/-- A read is well behaved: it reports an error, or returns as many bytes as the entry says, which
are those of its data blocks. -/
def Container.ReadsWell (c : Container) (maxAlloc : Nat) (img : Image) (name : Bytes) : Prop :=
  (∃ err, c.readFile maxAlloc img name = fail err) ∨
    ∃ e blocks out, c.find name = .ok e ∧ c.dataBlocks maxAlloc img e = .ok blocks ∧
      c.readFile maxAlloc img name = .ok out ∧ out.length = e.size.toNat ∧
      out = (c.contents img blocks).take e.size.toNat

theorem Opened.blockCount (h : Opened img c) {e : FileEntry} (hsize : e.size.toNat < 2 ^ 63) :
    ∃ n, ((e.size + c.blockSize - 1) / c.blockSize).toNat = n ∧
      e.size.toNat ≤ n * c.blockSize.toNat ∧
      n * c.blockSize.toNat < e.size.toNat + c.blockSize.toNat := by
  have hbs := h.blockSize_lt
  have hpos : 0 < c.blockSize.toNat := lt_of_lt_of_le (by decide) h.le_blockSize
  refine ⟨_, rfl, ?_⟩
  have hsum : (e.size + c.blockSize).toNat = e.size.toNat + c.blockSize.toNat := by
    rw [UInt64.toNat_add, Nat.mod_eq_of_lt (by omega)]
  have hround : (e.size + c.blockSize - 1).toNat = e.size.toNat + c.blockSize.toNat - 1 := by
    rw [UInt64.toNat_sub_of_le, hsum]
    · rfl
    · rw [UInt64.le_iff_toNat_le, hsum]
      change 1 ≤ _
      omega
  rw [UInt64.toNat_div, hround]
  have hfloor := Nat.div_mul_le_self (e.size.toNat + c.blockSize.toNat - 1) c.blockSize.toNat
  have hceil := Nat.lt_div_mul_add hpos (a := e.size.toNat + c.blockSize.toNat - 1)
  omega

theorem Opened.readEntry (h : Opened img c) {maxAlloc : Nat} (hmin : 2 ^ 32 ≤ maxAlloc)
    (hmax : maxAlloc < 2 ^ 63) {e : FileEntry} (hsize : e.size.toNat ≤ maxAlloc) :
    (∃ err, c.readEntry maxAlloc img e = fail err) ∨
      ∃ blocks out, c.dataBlocks maxAlloc img e = .ok blocks ∧
        c.readEntry maxAlloc img e = .ok out ∧ out.length = e.size.toNat ∧
        out = (c.contents img blocks).take e.size.toNat := by
  have hbs := h.blockSize_lt
  have hle := h.le_blockSize
  rw [headerSize] at hle
  obtain ⟨n, hn, hcover, hlast⟩ := h.blockCount (lt_of_le_of_lt hsize hmax)
  -- the block list is no larger than the contents
  have hroom : n * 8 ≤ maxAlloc := by
    have := Nat.mul_le_mul_left n hle
    omega
  have hdata : c.dataBlocks maxAlloc img e = (List.range n).mapM fun i =>
      c.resolveDataBlock (c.readBlock img) e (UInt64.ofNat i) := by
    rw [Container.dataBlocks_eq]
    dsimp only
    rw [hn, make, if_pos hroom]
    rfl
  have hout : (make maxAlloc 1 e.size.toNat (0 : UInt8) : Outcome Bytes) =
      .ok (List.replicate e.size.toNat 0) := by
    rw [make, if_pos (by omega)]
  have hread : c.readEntry maxAlloc img e = if e.size = 0 then .ok (List.replicate e.size.toNat 0)
      else (c.dataBlocks maxAlloc img e >>= fun blocks => c.fill img e 0 blocks
        (List.replicate e.size.toNat 0)) := by
    rw [Container.readEntry, hout]
    rfl
  rw [hread, hdata]
  by_cases hzero : e.size = 0
  · -- an empty file has no blocks
    have hn0 : n = 0 := by
      rw [hzero, UInt64.toNat_zero] at hlast
      by_contra hne
      have := Nat.le_mul_of_pos_left c.blockSize.toNat (Nat.pos_of_ne_zero hne)
      omega
    rw [if_pos hzero, hzero, hn0]
    exact .inr ⟨[], [], rfl, rfl, rfl, rfl⟩
  rw [if_neg hzero]
  rcases h.resolveAll e (by omega : n * c.blockSize.toNat < 2 ^ 64) with
    ⟨blocks, hblocks, hlen, hlt⟩ | ⟨err, herr⟩
  · have hpos : 0 < e.size.toNat := Nat.pos_of_ne_zero fun h0 => hzero (UInt64.toNat_inj.mp h0)
    have hfill : c.fill img e 0 blocks (List.replicate e.size.toNat 0) =
        .ok ((c.contents img blocks).take e.size.toNat) := by
      have hrun := h.fill (e := e) (i := 0) hlt (lt_of_le_of_lt hsize hmax)
        (List.length_replicate (n := e.size.toNat) (a := (0 : UInt8)))
        (fun hne => by rw [Nat.zero_add, hlen, Nat.sub_mul]; omega)
        (by rw [Nat.zero_add, hlen]; exact hcover)
      rw [hrun, Nat.zero_mul, List.take_zero, List.nil_append, Nat.sub_zero]
    refine .inr ⟨blocks, _, hblocks, by rw [hblocks]; exact hfill, ?_, rfl⟩
    rw [List.length_take, h.length_contents hlt, hlen, Nat.min_eq_left hcover]
  · exact .inl ⟨err, by rw [herr]; rfl⟩

end Panic

/-- **When reads panic.** A read of an internal file reports an error or returns the bytes of its
data blocks, cut to the size its entry gives, exactly if the size of the entry that bears the name
is one a slice can have. -/
theorem readFile_iff {img : Image} {c : Container} (hopen : «open» img = .ok c) {maxAlloc : Nat}
    (hmin : 2 ^ 32 ≤ maxAlloc) (hmax : maxAlloc < 2 ^ 63) (name : Bytes) :
    c.ReadsWell maxAlloc img name ↔ ∀ e, c.find name = .ok e → e.size.toNat ≤ maxAlloc := by
  have h := opened hopen
  constructor
  · intro hwell e hfind
    by_contra hbig
    have hpanic : c.readFile maxAlloc img name = .error .panic := by
      rw [Container.readFile, hfind]
      change c.readEntry maxAlloc img e = _
      rw [Container.readEntry, make, if_neg (by omega)]
      rfl
    rcases hwell with ⟨err, herr⟩ | ⟨e', blocks, out, -, -, hok, -⟩
    · cases hpanic.symm.trans herr
    · cases hpanic.symm.trans hok
  · intro hsize
    rcases h.find name with ⟨e, hfind⟩ | ⟨err, hfind⟩
    · have hread : c.readFile maxAlloc img name = c.readEntry maxAlloc img e := by
        rw [Container.readFile, hfind]
        rfl
      rw [Container.ReadsWell, hread]
      rcases h.readEntry hmin hmax (hsize e hfind) with herr | ⟨blocks, out, hrest⟩
      · exact .inl herr
      · exact .inr ⟨e, blocks, out, hfind, hrest⟩
    · exact .inl ⟨err, by rw [Container.readFile, hfind]; rfl⟩

theorem readFile_iff_twoBlocks :
    ∃ c, «open» twoBlocks = .ok c ∧ c.ReadsWell (2 ^ 48) twoBlocks [97] := by
  have hopen : «open» twoBlocks = .ok twoBlocksContainer := by decide +kernel
  have hfind : twoBlocksContainer.find [97] = .ok twoBlocksEntry := by decide +kernel
  refine ⟨_, hopen, (readFile_iff hopen (by decide) (by decide) [97]).mpr fun e he => ?_⟩
  rw [hfind] at he
  cases he
  decide

/-- A container whose one entry gives a size of `2 ^ 63` bytes. -/
def hugeEntry : Image where
  bytes := magic ++ [4, 0, 0] ++ le32 64 ++ le32 2 ++
    le64 (2 ^ 63) ++ le64 1 ++ le64 11 ++ List.replicate 24 0 ++ List.replicate 64 0
  length_lt := by decide +kernel

def hugeEntryContainer : Container :=
  { twoBlocksContainer with
    block0 := hugeEntry.bytes.take 64, nextFreeBlock := 2, fileSize := 128 }

/-- The container opens, and reading its file panics. -/
theorem readFile_hugeEntry :
    ∃ c, «open» hugeEntry = .ok c ∧
      c.readFile (2 ^ 48) hugeEntry [97] = .error .panic ∧
      ¬ c.ReadsWell (2 ^ 48) hugeEntry [97] := by
  have hopen : «open» hugeEntry = .ok hugeEntryContainer := by decide +kernel
  have hpanic : hugeEntryContainer.readFile (2 ^ 48) hugeEntry [97] = .error .panic := by
    decide +kernel
  refine ⟨_, hopen, hpanic, ?_⟩
  rintro (⟨err, herr⟩ | ⟨e, blocks, out, -, -, hok, -⟩)
  · cases hpanic.symm.trans herr
  · cases hpanic.symm.trans hok

end Ctfs
