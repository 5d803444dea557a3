import WasmRecorder.Wasmsnapshot.Materialise

/-!
# How much of a stream its decoder reads

A stream is a slice of a container, of a length that an index record declares. A decoder that stops
in front of the end of its slice ignores what is behind.

* `length_decodeRegions` — what the decoder of the layout returns takes that many bytes, whatever
  stands behind them.
* `decoders_consume` — all four, for every stream.
-/

namespace Wasmsnapshot

open Checked LittleEndian Slice Fallible

/-! ### Lengths of records -/

theorem length_flatMap_of_forall {α : Type} {enc : α → Bytes} {size : Nat}
    (hsize : ∀ a, (enc a).length = size) (l : List α) :
    (l.flatMap enc).length = l.length * size := by
  induction l with
  | nil => rw [List.flatMap_nil, List.length_nil, List.length_nil, Nat.zero_mul]
  | cons a l ih =>
    rw [List.flatMap_cons, List.length_append, ih, hsize, List.length_cons, Nat.succ_mul,
      Nat.add_comm]

theorem length_indexRecord (r : IndexRecord) : r.bytes.length = indexRecordSize := by
  simp only [IndexRecord.bytes, List.length_append, length_le32, length_le64]
  rfl

theorem length_indexHeader (count : Nat) : (indexHeader count).length = indexHeaderSize := by
  simp only [indexHeader, List.length_append, length_le16, length_le32]
  rfl

theorem length_encodeIndex (records : List IndexRecord) :
    (encodeIndex records).length = indexHeaderSize + records.length * indexRecordSize := by
  rw [encodeIndex, List.length_append, length_indexHeader,
    length_flatMap_of_forall length_indexRecord]

theorem length_globalValue (g : GlobalValue) : g.bytes.length = globalRecordSize := by
  simp only [GlobalValue.bytes, List.length_append, length_le64]
  rfl

theorem length_tableValue (t : TableValue) : t.bytes.length = 8 + t.elements.length * 4 := by
  rw [TableValue.bytes, List.length_append, List.length_append, length_le32,
    length_flatMap_of_forall fun _ => length_le32 _, ← Nat.add_assoc]
  rfl

theorem RegionReader.length_hashesBytes (hs : List Uint128) :
    (hashesBytes hs).length = hs.length * 16 :=
  length_flatMap_of_forall length_bytes hs

/-! ### Decoders that compare -/

theorem length_decodeIndex {raw : Bytes} {records : List IndexRecord}
    (h : decodeIndex raw = .ok records) : (encodeIndex records).length = raw.length := by
  rw [decodeIndex] at h
  split at h
  · cases h
  obtain ⟨magic, -, h⟩ := bind_eq_ok.mp h
  split at h
  · cases h
  obtain ⟨version, -, h⟩ := bind_eq_ok.mp h
  split at h
  · cases h
  obtain ⟨size, -, h⟩ := bind_eq_ok.mp h
  split at h
  · cases h
  obtain ⟨cas, -, h⟩ := bind_eq_ok.mp h
  dsimp only at h
  split at h
  · cases h
  obtain ⟨n, -, h⟩ := bind_eq_ok.mp h
  split at h
  · cases h
  · next hlen =>
    rw [not_not] at hlen
    rw [length_encodeIndex, length_of_mapM_eq_ok h, List.length_range, hlen]

theorem length_encodeGlobals (gs : List GlobalValue) :
    (encodeGlobals gs).length = 4 + gs.length * globalRecordSize := by
  rw [encodeGlobals, List.length_append, length_le32, length_flatMap_of_forall length_globalValue]

theorem length_decodeGlobals {raw : Bytes} (hne : raw ≠ []) {gs : List GlobalValue}
    (h : decodeGlobals raw = .ok gs) : (encodeGlobals gs).length = raw.length := by
  rw [decodeGlobals, if_neg (List.length_eq_zero_iff.not.mpr hne)] at h
  split at h
  · cases h
  obtain ⟨n, -, h⟩ := bind_eq_ok.mp h
  dsimp only at h
  split at h
  · cases h
  · next hlen =>
    rw [not_not] at hlen
    rw [length_encodeGlobals, length_of_mapM_eq_ok h, List.length_range, hlen]

theorem length_encodeTables (ts : List TableValue) :
    (encodeTables ts).length = 4 + (ts.flatMap TableValue.bytes).length := by
  rw [encodeTables, List.length_append, length_le32]

theorem off_decodeTableList {raw : Bytes} {i n off off' : Nat} {ts : List TableValue}
    (h : decodeTableList raw i n off = .ok (ts, off')) :
    off' = off + (ts.flatMap TableValue.bytes).length := by
  induction n generalizing i off ts with
  | zero =>
    cases h
    rfl
  | succ n ih =>
    rw [decodeTableList] at h
    split at h
    · cases h
    obtain ⟨refType, -, h⟩ := bind_eq_ok.mp h
    obtain ⟨count, -, h⟩ := bind_eq_ok.mp h
    dsimp only at h
    split at h
    · cases h
    obtain ⟨elements, helements, h⟩ := bind_eq_ok.mp h
    obtain ⟨⟨rest, last⟩, hrest, h⟩ := bind_eq_ok.mp h
    cases h
    have hcount : elements.length = count.toNat := by
      rw [length_of_mapM_eq_ok helements, List.length_range]
    rw [ih hrest, List.flatMap_cons, List.length_append, length_tableValue, List.length_map, hcount]
    dsimp only
    omega

theorem length_decodeTables {raw : Bytes} (hne : raw ≠ []) {ts : List TableValue}
    (h : decodeTables raw = .ok ts) : (encodeTables ts).length = raw.length := by
  rw [decodeTables, if_neg (List.length_eq_zero_iff.not.mpr hne)] at h
  split at h
  · cases h
  obtain ⟨n, -, h⟩ := bind_eq_ok.mp h
  obtain ⟨⟨ts', off⟩, hlist, h⟩ := bind_eq_ok.mp h
  dsimp only at h
  split at h
  · cases h
  · next hoff =>
    cases h
    rw [not_not] at hoff
    rw [length_encodeTables, ← off_decodeTableList hlist, hoff]

/-! ### The layout -/

/-- The bytes that a number of runs from an offset on take, by the counts that stand there. -/
def runsLength (raw : Bytes) : Nat → Nat → Nat
  | 0, _ => 0
  | n + 1, off =>
    let length := 12 + (u32At raw (off + 8)).toNat * 16
    length + runsLength raw n (off + length)

/-- The bytes that what a region consists of takes. -/
def kindLength (raw : Bytes) (kind : UInt8) (off : Nat) : Nat :=
  if kind = kindFull then 8
  else if kind = kindHashRef then 4 + (u32At raw off).toNat * 16
  else 4 + runsLength raw (u32At raw off).toNat (off + 4)

/-- The bytes that the region at an offset takes. -/
def regionLength (raw : Bytes) (off : Nat) : Nat :=
  28 + kindLength raw (raw.getD (off + 24) 0) (off + 28)

/-- The bytes that a number of regions from an offset on take. -/
def regionsLength (raw : Bytes) : Nat → Nat → Nat
  | 0, _ => 0
  | n + 1, off =>
    regionLength raw off + regionsLength raw n (off + regionLength raw off)

/-- The length that the counts inside a layout declare. -/
def layoutLength (raw : Bytes) : Nat := 4 + regionsLength raw (u32At raw 0).toNat 4

namespace RegionReader

variable {r r' : RegionReader}

theorem need_ok {n : Nat} {s : Bytes} (h : need n r = .ok (s, r')) (herr : r'.err = none) :
    r.err = none ∧ r' = { r with off := r.off + n } ∧ s = slice r.b r.off (r.off + n) := by
  rw [need] at h
  split at h
  · next hsome =>
    cases h
    rw [herr] at hsome
    cases hsome
  split at h
  · cases h
    cases herr
  · next hnone hlen =>
    obtain ⟨s', hs, h⟩ := bind_eq_ok.mp h
    cases h
    rw [sub_eq (Nat.le_add_right _ _) (not_lt.mp hlen)] at hs
    cases hs
    exact ⟨herr, rfl, rfl⟩

theorem u32_ok {x : UInt32} (h : u32 r = .ok (x, r')) (herr : r'.err = none) :
    r.err = none ∧ r' = { r with off := r.off + 4 } ∧ x = u32At r.b r.off := by
  obtain ⟨⟨s, r₁⟩, hs, h⟩ := bind_eq_ok.mp h
  obtain ⟨y, hy, h⟩ := bind_eq_ok.mp h
  cases h
  obtain ⟨hr, hr₁, hslice⟩ := need_ok hs herr
  have hlen : s.length = 4 := length_of_need hs
  rw [uint32_eq (by omega)] at hy
  cases hy
  refine ⟨hr, hr₁, ?_⟩
  rw [hslice, u32At, u32At, slice, List.drop_zero, List.drop_take, Nat.add_sub_cancel_left,
    List.take_take, Nat.min_self]

theorem u64_ok {x : UInt64} (h : u64 r = .ok (x, r')) (herr : r'.err = none) :
    r.err = none ∧ r' = { r with off := r.off + 8 } := by
  obtain ⟨⟨s, r₁⟩, hs, h⟩ := bind_eq_ok.mp h
  obtain ⟨y, -, h⟩ := bind_eq_ok.mp h
  cases h
  obtain ⟨hr, hr₁, -⟩ := need_ok hs herr
  exact ⟨hr, hr₁⟩

theorem failed_ok (h : r.failed = .ok ()) : r.err = none := by
  rw [failed] at h
  split at h
  · cases h
  · assumption

theorem hashList_ok {n : Nat} {hs : List Uint128} (h : hashList n r = .ok (hs, r'))
    (herr : r'.err = none) :
    r.err = none ∧ r' = { r with off := r.off + n * 16 } ∧ hs.length = n := by
  induction n generalizing r hs with
  | zero =>
    cases h
    exact ⟨herr, by rw [Nat.zero_mul, Nat.add_zero], rfl⟩
  | succ n ih =>
    obtain ⟨⟨s, r₁⟩, hs, h⟩ := bind_eq_ok.mp h
    obtain ⟨⟨rest, r₂⟩, hrest, h⟩ := bind_eq_ok.mp h
    cases h
    obtain ⟨hr₁, hr₂, hlen⟩ := ih hrest
    obtain ⟨hr, rfl, -⟩ := need_ok hs hr₁
    refine ⟨hr, ?_, by rw [List.length_cons, hlen]⟩
    rw [hr₂, Nat.succ_mul, Nat.add_assoc, Nat.add_comm 16]

theorem countedHashes_ok {hs : List Uint128} (h : countedHashes r = .ok (hs, r')) :
    r.err = none ∧ r'.err = none ∧ hs.length = (u32At r.b r.off).toNat ∧
      r' = { r with off := r.off + (4 + hs.length * 16) } := by
  obtain ⟨⟨c, r₁⟩, hc, h⟩ := bind_eq_ok.mp h
  obtain ⟨_, hfailed, h⟩ := bind_eq_ok.mp h
  obtain ⟨hr, rfl, rfl⟩ := u32_ok hc (failed_ok hfailed)
  rw [hashes] at h
  split at h
  · cases h
  obtain ⟨⟨hs', r₂⟩, hlist, h⟩ := bind_eq_ok.mp h
  obtain ⟨_, hfailed, h⟩ := bind_eq_ok.mp h
  cases h
  obtain ⟨-, hr', hlen⟩ := hashList_ok hlist (failed_ok hfailed)
  refine ⟨hr, failed_ok hfailed, hlen, ?_⟩
  rw [hr', hlen, Nat.add_assoc]

theorem runList_ok {n : Nat} {runs : List HashRun} (h : runList n r = .ok (runs, r'))
    (herr : r'.err = none) :
    r.err = none ∧ r' = { r with off := r.off + runsLength r.b n r.off } ∧
      runs.length = n ∧ (runs.flatMap HashRun.bytes).length = runsLength r.b n r.off := by
  induction n generalizing r runs with
  | zero =>
    cases h
    exact ⟨herr, rfl, rfl, rfl⟩
  | succ n ih =>
    obtain ⟨⟨cacheID, r₁⟩, hid, h⟩ := bind_eq_ok.mp h
    obtain ⟨⟨hs, r₂⟩, hhashes, h⟩ := bind_eq_ok.mp h
    obtain ⟨⟨rest, r₃⟩, hrest, h⟩ := bind_eq_ok.mp h
    cases h
    obtain ⟨hr₁, -, hcount, hr₂⟩ := countedHashes_ok hhashes
    obtain ⟨hr, rfl⟩ := u64_ok hid hr₁
    obtain ⟨-, hr₃, hlen, hbytes⟩ := ih hrest
    subst hr₂
    have hwidth : r.off + 8 + (4 + hs.length * 16) =
        r.off + (12 + (u32At r.b (r.off + 8)).toNat * 16) := by
      rw [← hcount]
      omega
    dsimp only at hr₃ hbytes
    rw [hwidth] at hr₃ hbytes
    refine ⟨hr, ?_, by rw [List.length_cons, hlen], ?_⟩
    · rw [hr₃, runsLength, Nat.add_assoc]
    · rw [List.flatMap_cons, List.length_append, hbytes, HashRun.bytes, List.length_append,
        List.length_append, length_le64, length_le32, length_hashesBytes, runsLength, hcount]
      dsimp only
      omega

end RegionReader

open RegionReader

theorem decodeKind_ok {i : Nat} {tag : UInt8} {kind : RegionKind} {r r' : RegionReader}
    (h : decodeKind i tag r = .ok (kind, r')) (herr : r'.err = none) :
    r' = { r with off := r.off + kindLength r.b tag r.off } ∧
      kind.bytes.length = kindLength r.b tag r.off := by
  rw [decodeKind] at h
  rw [kindLength]
  split at h
  · next htag =>
    obtain ⟨⟨fileOffset, r₁⟩, hr₁, h⟩ := bind_eq_ok.mp h
    cases h
    rw [if_pos htag]
    exact ⟨(u64_ok hr₁ herr).2, length_le64 _⟩
  split at h
  · next hfull htag =>
    obtain ⟨⟨hs, r₁⟩, hr₁, h⟩ := bind_eq_ok.mp h
    cases h
    obtain ⟨-, -, hcount, hr'⟩ := countedHashes_ok hr₁
    rw [if_neg hfull, if_pos htag, ← hcount]
    refine ⟨hr', ?_⟩
    rw [RegionKind.bytes, List.length_append, length_le32, length_hashesBytes]
  split at h
  · next hfull href htag =>
    obtain ⟨⟨count, r₁⟩, hr₁, h⟩ := bind_eq_ok.mp h
    obtain ⟨_, hfailed, h⟩ := bind_eq_ok.mp h
    obtain ⟨-, rfl, rfl⟩ := u32_ok hr₁ (failed_ok hfailed)
    dsimp only at h
    split at h
    · cases h
    obtain ⟨⟨runs, r₂⟩, hr₂, h⟩ := bind_eq_ok.mp h
    cases h
    obtain ⟨-, hr', -, hbytes⟩ := runList_ok hr₂ herr
    rw [if_neg hfull, if_neg href]
    refine ⟨by rw [hr', Nat.add_assoc], ?_⟩
    rw [RegionKind.bytes, List.length_append, length_le32, hbytes]
  · cases h

theorem getElem?_of_byteAt {b : Bytes} {off : Nat} {x : UInt8}
    (h : (byteAt b off : Except (Fault StreamError) UInt8) = .ok x) : b[off]? = some x := by
  rw [byteAt.eq_def] at h
  split at h
  · next y hy =>
    cases h
    exact hy
  · cases h

theorem length_region (r : Region) : r.bytes.length = 28 + r.kind.bytes.length := by
  simp only [Region.bytes, List.length_append, length_le64, length_le32, List.length_cons,
    List.length_nil]
  omega

theorem decodeRegion_ok {i : Nat} {region : Region} {r r' : RegionReader}
    (h : decodeRegion i r = .ok (region, r')) :
    r'.err = none ∧ r' = { r with off := r.off + regionLength r.b r.off } ∧
      region.bytes.length = regionLength r.b r.off := by
  obtain ⟨⟨base, r₁⟩, h₁, h⟩ := bind_eq_ok.mp h
  obtain ⟨⟨size, r₂⟩, h₂, h⟩ := bind_eq_ok.mp h
  obtain ⟨⟨protect, r₃⟩, h₃, h⟩ := bind_eq_ok.mp h
  obtain ⟨⟨flags, r₄⟩, h₄, h⟩ := bind_eq_ok.mp h
  obtain ⟨⟨kb, r₅⟩, h₅, h⟩ := bind_eq_ok.mp h
  obtain ⟨b₁, -, h⟩ := bind_eq_ok.mp h
  obtain ⟨b₂, -, h⟩ := bind_eq_ok.mp h
  obtain ⟨b₃, -, h⟩ := bind_eq_ok.mp h
  split at h
  · cases h
  obtain ⟨_, hfailed, h⟩ := bind_eq_ok.mp h
  obtain ⟨tag, htag, h⟩ := bind_eq_ok.mp h
  obtain ⟨⟨kind, r₆⟩, h₆, h⟩ := bind_eq_ok.mp h
  obtain ⟨_, hfailed₆, h⟩ := bind_eq_ok.mp h
  cases h
  -- the errors of the cursor stay, so none of the fixed fields was past the end
  obtain ⟨he, rfl, hkb⟩ := need_ok h₅ (failed_ok hfailed)
  obtain ⟨he, rfl, -⟩ := u32_ok h₄ he
  obtain ⟨he, rfl, -⟩ := u32_ok h₃ he
  obtain ⟨he, rfl⟩ := u64_ok h₂ he
  obtain ⟨he, rfl⟩ := u64_ok h₁ he
  have htag' : tag = r.b.getD (r.off + 24) 0 := by
    have hget := getElem?_of_byteAt htag
    rw [hkb, slice, List.drop_take, List.getElem?_take_of_lt (by omega), List.getElem?_drop] at hget
    rw [List.getD_eq_getElem?_getD, ← Nat.add_zero (r.off + 24)]
    exact (congrArg (Option.getD · 0) hget).symm
  obtain ⟨hr', hbytes⟩ := decodeKind_ok h₆ (failed_ok hfailed₆)
  rw [htag'] at hr' hbytes
  dsimp only at hr' hbytes
  have hoff : r.off + 8 + 8 + 4 + 4 + 4 = r.off + 28 := by omega
  rw [hoff] at hr' hbytes
  refine ⟨failed_ok hfailed₆, ?_, ?_⟩
  · rw [hr', regionLength, Nat.add_assoc]
  · rw [length_region, hbytes, regionLength]

theorem decodeRegionList_ok {i n : Nat} {regions : List Region} {r r' : RegionReader}
    (h : decodeRegionList i n r = .ok (regions, r')) :
    (regions.flatMap Region.bytes).length = regionsLength r.b n r.off := by
  induction n generalizing i r regions with
  | zero =>
    cases h
    rfl
  | succ n ih =>
    obtain ⟨⟨region, r₁⟩, hr₁, h⟩ := bind_eq_ok.mp h
    obtain ⟨⟨rest, r₂⟩, hrest, h⟩ := bind_eq_ok.mp h
    cases h
    obtain ⟨-, rfl, hbytes⟩ := decodeRegion_ok hr₁
    rw [List.flatMap_cons, List.length_append, hbytes, ih hrest, regionsLength]

theorem length_decodeRegions {raw : Bytes} (hne : raw ≠ []) {regions : List Region}
    (h : decodeRegions raw = .ok regions) : (encodeRegions regions).length = layoutLength raw := by
  rw [decodeRegions, if_neg (List.length_eq_zero_iff.not.mpr hne)] at h
  obtain ⟨⟨n, r₁⟩, hr₁, h⟩ := bind_eq_ok.mp h
  obtain ⟨_, hfailed, h⟩ := bind_eq_ok.mp h
  obtain ⟨-, rfl, rfl⟩ := u32_ok hr₁ (failed_ok hfailed)
  split at h
  · cases h
  obtain ⟨⟨regions', r₂⟩, hlist, h⟩ := bind_eq_ok.mp h
  cases h
  rw [encodeRegions, List.length_append, length_le32, decodeRegionList_ok hlist, layoutLength]

/-! ### All decoders -/

/-- **Which decoders ignore bytes.** What a decoder returns takes exactly the bytes it was given,
except that the decoder of the layout does not look behind the last region. -/
theorem decoders_consume (raw : Bytes) (hne : raw ≠ []) :
    (∀ records, decodeIndex raw = .ok records → (encodeIndex records).length = raw.length) ∧
      (∀ gs, decodeGlobals raw = .ok gs → (encodeGlobals gs).length = raw.length) ∧
      (∀ ts, decodeTables raw = .ok ts → (encodeTables ts).length = raw.length) ∧
      ∀ regions, decodeRegions raw = .ok regions →
        ((encodeRegions regions).length = raw.length ↔ layoutLength raw = raw.length) := by
  refine ⟨fun _ => length_decodeIndex, fun _ => length_decodeGlobals hne,
    fun _ => length_decodeTables hne, fun regions h => ?_⟩
  rw [length_decodeRegions hne h]

/-- A layout of one region, and nothing behind it. -/
theorem decoders_consume_region :
    decodeRegions (1 :: 0 :: 0 :: 0 :: Region.bytes ⟨0, 4, 3, 0, .full 0⟩) =
        .ok [⟨0, 4, 3, 0, .full 0⟩] ∧
      (encodeRegions [⟨0, 4, 3, 0, .full 0⟩]).length =
        (1 :: 0 :: 0 :: 0 :: Region.bytes ⟨0, 4, 3, 0, .full 0⟩).length :=
  ⟨by decide +kernel, ((decoders_consume (1 :: 0 :: 0 :: 0 :: Region.bytes ⟨0, 4, 3, 0, .full 0⟩)
    (List.cons_ne_nil _ _)).2.2.2 _ (by decide +kernel)).mpr (by decide +kernel)⟩

/-- A layout of no regions with a byte behind it. -/
theorem decodeRegions_trailing :
    decodeRegions [0, 0, 0, 0, 7] = .ok [] ∧
      (encodeRegions []).length ≠ ([0, 0, 0, 0, 7] : Bytes).length := by decide

end Wasmsnapshot
