import WasmRecorder.Ctfs.Container
import WasmRecorder.Lib.Cached

/-!
# The block mapping

The mapping blocks of an internal file are a chain of trees. The first block of the chain is a
tree of height one and covers the indices `0, …, u - 1`, the next one is a tree of height two and
covers the `u ^ 2` indices behind those, and so on, up to height five; `u` is the number of
child pointers of a block, and the word behind them points to the next block of the chain.

* `slotPath_injective` — no two indices share a path.
* `resolveDataBlock_eq_lookup` — the three together.
-/

namespace Ctfs

open Cached Checked LittleEndian Slice

/-! ### The cache -/

/-- Every cached block is what reading it gives. -/
def Container.Consistent (c : Container) (img : Image) (cache : BlockCache) : Prop :=
  ∀ blk b, cache.lookup blk = some b → c.readBlock img blk = .ok b

theorem Container.consistent_nil (c : Container) (img : Image) : c.Consistent img [] :=
  nofun

section

variable {c : Container} {img : Image} {e : FileEntry} {blockIdx : UInt64}

theorem Container.cachedBlock_tracks (c : Container) (img : Image) (blk : UInt64) :
    Tracks (c.Consistent img) (c.cachedBlock img blk) (c.readBlock img blk) := by
  intro cache hcache
  cases hlookup : cache.lookup blk with
  | some b =>
    refine ⟨cache, hcache, ?_⟩
    rw [hcache blk b hlookup]
    simp [Container.cachedBlock, hlookup, Except.map]
    rfl
  | none =>
    cases hread : c.readBlock img blk with
    | error f =>
      refine ⟨cache, hcache, ?_⟩
      simp [Container.cachedBlock, hlookup, hread, Except.map]
    | ok b =>
      refine ⟨(blk, b) :: cache, ?_, ?_⟩
      · intro blk' b' hb'
        rw [List.lookup_cons] at hb'
        split at hb'
        · next heq =>
          cases hb'
          rw [beq_iff_eq.mp heq]
          exact hread
        · exact hcache blk' b' hb'
      · simp [Container.cachedBlock, hlookup, hread, Except.map]

theorem Container.ascend_tracks (above : Nat) (idx cur : UInt64) :
    Tracks (c.Consistent img) (c.ascend (c.cachedBlock img) e blockIdx above idx cur)
      (c.ascend (c.readBlock img) e blockIdx above idx cur) := by
  induction above generalizing idx cur with
  | zero =>
    rw [Container.ascend.eq_def, Container.ascend.eq_def]
    dsimp only
    split
    · exact Tracks.pure _
    · exact Tracks.lift _
  | succ above ih =>
    rw [Container.ascend.eq_def, Container.ascend.eq_def]
    dsimp only
    split
    · exact Tracks.pure _
    · refine (c.cachedBlock_tracks img cur).bind fun blk => (Tracks.lift _).bind fun chain => ?_
      split
      · exact Tracks.lift _
      · exact ih _ _

theorem Container.descend_tracks (below : Nat) (idx cur : UInt64) :
    Tracks (c.Consistent img) (c.descend (c.cachedBlock img) e blockIdx below idx cur)
      (c.descend (c.readBlock img) e blockIdx below idx cur) := by
  induction below generalizing idx cur with
  | zero =>
    refine (c.cachedBlock_tracks img cur).bind fun blk => (Tracks.lift _).bind fun p => ?_
    split
    · exact Tracks.lift _
    · split
      · exact Tracks.lift _
      · exact Tracks.pure _
  | succ below ih =>
    refine (c.cachedBlock_tracks img cur).bind fun blk => (Tracks.lift _).bind fun child => ?_
    split
    · exact Tracks.lift _
    · exact ih _ _

theorem Container.resolveDataBlock_tracks (c : Container) (img : Image) (e : FileEntry)
    (blockIdx : UInt64) :
    Tracks (c.Consistent img) (c.resolveDataBlock (c.cachedBlock img) e blockIdx)
      (c.resolveDataBlock (c.readBlock img) e blockIdx) :=
  (Container.ascend_tracks _ _ _).bind fun ⟨_, _, _⟩ => Container.descend_tracks _ _ _

end

/-! ### The producer's lookup -/

/-- The first of the given levels that covers an index, and the index within it. -/
def levelOf (u : Nat) : Nat → Nat → Nat → Option (Nat × Nat)
  | 0, _, _ => none
  | n + 1, level, i =>
    if i < u ^ level then some (level, i) else levelOf u n (level + 1) (i - u ^ level)

/-- The slots from the head block of a level to a data block. -/
def slotsIn (u : Nat) : Nat → Nat → List Nat
  | 0, _ => []
  | level + 1, i => i / u ^ level :: slotsIn u level (i % u ^ level)

/-- The level that covers an index, and the slots from its head block to the data block. -/
def slotPath (u i : Nat) : Option (Nat × List Nat) :=
  (levelOf u maxMapLevels 1 i).map fun (level, j) => (level, slotsIn u level j)

/-- Follow pointers from a block: the blocks visited, and the pointer found last. A null pointer
ends the walk. -/
def follow (readPtr : Nat → Nat → Nat) : Nat → List Nat → List Nat × Nat
  | cur, [] => ([], cur)
  | cur, s :: slots =>
    if readPtr cur s = 0 then ([cur], 0)
    else (cur :: (follow readPtr (readPtr cur s) slots).1, (follow readPtr (readPtr cur s) slots).2)

/-- The producer's lookup: along the chain pointers, in slot `u`, to the head block of the level,
and from there along the path. -/
def lookupDataBlock (readPtr : Nat → Nat → Nat) (u root i : Nat) : List Nat × Nat :=
  match slotPath u i with
  | none => ([], 0)
  | some (level, slots) => follow readPtr root (List.replicate (level - 1) u ++ slots)

/-- A lookup that stays inside the container and finds a block of it. -/
def Valid (blocks : Nat) (r : List Nat × Nat) : Prop :=
  r.2 ≠ 0 ∧ (∀ v ∈ r.1, 0 < v ∧ v < blocks) ∧ r.2 < blocks

theorem valid_follow_cons {readPtr : Nat → Nat → Nat} {blocks cur s : Nat} {slots : List Nat} :
    Valid blocks (follow readPtr cur (s :: slots)) ↔
      (0 < cur ∧ cur < blocks) ∧ Valid blocks (follow readPtr (readPtr cur s) slots) := by
  rw [follow]
  by_cases hnull : readPtr cur s = 0
  · -- a null pointer is no data block, and cannot be visited either
    rw [if_pos hnull, hnull]
    refine ⟨fun h => absurd rfl h.1, fun ⟨_, h⟩ => ?_⟩
    cases slots with
    | nil => exact absurd rfl h.1
    | cons s' slots =>
      rw [follow] at h
      split at h
      · exact absurd rfl h.1
      · exact absurd (h.2.1 0 List.mem_cons_self).1 (lt_irrefl 0)
  · rw [if_neg hnull, Valid, Valid, List.forall_mem_cons]
    tauto

theorem slotsIn_injective {u : Nat} {level i j : Nat} (hi : i < u ^ level) (hj : j < u ^ level)
    (h : slotsIn u level i = slotsIn u level j) : i = j := by
  induction level generalizing i j with
  | zero => rw [pow_zero] at hi hj; omega
  | succ level ih =>
    obtain ⟨hdiv, hmod⟩ := List.cons.inj h
    have hpos : 0 < u ^ level := by
      refine Nat.pos_of_ne_zero fun h0 => ?_
      rw [pow_succ, h0, Nat.zero_mul] at hi
      exact Nat.not_lt_zero _ hi
    have := ih (Nat.mod_lt _ hpos) (Nat.mod_lt _ hpos) hmod
    rw [← Nat.div_add_mod i (u ^ level), ← Nat.div_add_mod j (u ^ level), hdiv, this]

/-- The indices covered by the levels up to a given one. -/
def covered (u : Nat) : Nat → Nat
  | 0 => 0
  | level + 1 => covered u level + u ^ (level + 1)

theorem levelOf_spec {u n level i l j : Nat} (h : levelOf u n (level + 1) i = some (l, j)) :
    j < u ^ l ∧ ∃ l', l = l' + 1 ∧ level ≤ l' ∧ i + covered u level = j + covered u l' := by
  induction n generalizing level i with
  | zero => cases h
  | succ n ih =>
    rw [levelOf] at h
    split at h
    · next hlt =>
      cases h
      exact ⟨hlt, level, rfl, le_refl _, rfl⟩
    · next hge =>
      obtain ⟨hj, l', hl', hle, hsum⟩ := ih h
      refine ⟨hj, l', hl', by omega, ?_⟩
      rw [covered] at hsum
      omega

theorem slotPath_injective {u i j : Nat} {p : Nat × List Nat} (hi : slotPath u i = some p)
    (hj : slotPath u j = some p) : i = j := by
  obtain ⟨⟨l, i'⟩, hi', rfl⟩ := Option.map_eq_some_iff.mp hi
  obtain ⟨⟨_, j'⟩, hj', heq⟩ := Option.map_eq_some_iff.mp hj
  obtain ⟨rfl, hslots⟩ := Prod.mk.inj heq
  obtain ⟨hlt, k, hk, -, hsum⟩ := levelOf_spec hi'
  obtain ⟨hlt', k', hk', -, hsum'⟩ := levelOf_spec hj'
  obtain rfl := slotsIn_injective hlt hlt' hslots.symm
  obtain rfl : k = k' := by omega
  omega

/-! ### Reading pointers -/

/-- What the reader knows of a container's blocks. -/
structure Container.Fits (c : Container) (img : Image) : Prop where
  blockSize_mod : c.blockSize % 8 = 0
  le_blockSize : headerSize ≤ c.blockSize.toNat
  blockSize_lt : c.blockSize.toNat < 2 ^ 32
  nextFreeBlock : c.nextFreeBlock.toNat = img.bytes.length / c.blockSize.toNat

/-- The pointer in a slot of a block of the file. -/
def Image.pointer (img : Image) (blockSize blk s : Nat) : Nat :=
  (u64At img.bytes (blk * blockSize + s * 8)).toNat

section

variable {c : Container} {img : Image}

theorem Container.Fits.blockSize_eq (h : c.Fits img) :
    c.blockSize.toNat = 8 * (c.usable.toNat + 1) ∧ 0 < c.usable.toNat := by
  have hmod : c.blockSize.toNat % 8 = 0 := by
    have := congrArg UInt64.toNat h.blockSize_mod
    rwa [UInt64.toNat_mod] at this
  have hle := h.le_blockSize
  rw [headerSize] at hle
  have hdiv : (c.blockSize / 8).toNat = c.blockSize.toNat / 8 := UInt64.toNat_div _ _
  have husable : c.usable.toNat = c.blockSize.toNat / 8 - 1 := by
    rw [Container.usable, UInt64.toNat_sub_of_le _ _ ?_, hdiv]
    · rfl
    · rw [UInt64.le_iff_toNat_le, hdiv]
      change 1 ≤ _
      omega
  omega

theorem Container.Fits.block_le (h : c.Fits img) {blk : UInt64} (hblk : blk < c.nextFreeBlock) :
    (blk * c.blockSize).toNat = blk.toNat * c.blockSize.toNat ∧
      blk.toNat * c.blockSize.toNat + c.blockSize.toNat ≤ img.bytes.length := by
  have hlt : blk.toNat + 1 ≤ img.bytes.length / c.blockSize.toNat :=
    h.nextFreeBlock ▸ UInt64.lt_iff_toNat_lt.mp hblk
  have hpos : 0 < c.blockSize.toNat := lt_of_lt_of_le (by decide) h.le_blockSize
  have hbytes := (Nat.le_div_iff_mul_le hpos).mp hlt
  rw [Nat.succ_mul] at hbytes
  have hlen := img.length_lt
  refine ⟨?_, hbytes⟩
  rw [UInt64.toNat_mul, Nat.mod_eq_of_lt (by omega)]

theorem Container.Fits.readBlock (h : c.Fits img) {blk : UInt64} (hpos : blk ≠ 0)
    (hlt : blk < c.nextFreeBlock) :
    c.readBlock img blk = .ok (slice img.bytes (blk.toNat * c.blockSize.toNat)
      (blk.toNat * c.blockSize.toNat + c.blockSize.toNat)) := by
  obtain ⟨hmul, hle⟩ := h.block_le hlt
  rw [Container.readBlock, if_neg (not_or.mpr ⟨hpos, UInt64.not_le.mpr hlt⟩), Image.readAt, hmul,
    if_pos hle]

theorem Container.Fits.readPointer (h : c.Fits img) {cur s : UInt64}
    (hs : s.toNat ≤ c.usable.toNat) {α : Type} (k : UInt64 → Outcome α) :
    (do
      let blk ← c.readBlock img cur
      let p ← (uint64 blk (s * 8).toNat : Outcome UInt64)
      k p) =
    if cur = 0 ∨ c.nextFreeBlock ≤ cur then fail (.outsideBlocks cur c.nextFreeBlock)
    else k (u64At img.bytes (cur.toNat * c.blockSize.toNat + s.toNat * 8)) := by
  by_cases hcur : cur = 0 ∨ c.nextFreeBlock ≤ cur
  · rw [if_pos hcur, Container.readBlock, if_pos hcur]
    rfl
  · rw [if_neg hcur]
    rw [not_or, UInt64.not_le] at hcur
    obtain ⟨hsize, -⟩ := h.blockSize_eq
    have hbs := h.blockSize_lt
    have hslot : (s * 8).toNat = s.toNat * 8 := by
      rw [UInt64.toNat_mul]
      change s.toNat * 8 % 2 ^ 64 = _
      rw [Nat.mod_eq_of_lt (by omega)]
    obtain ⟨-, hle⟩ := h.block_le hcur.2
    rw [h.readBlock hcur.1 hcur.2, hslot]
    change (do
      let p ← (uint64 (slice img.bytes (cur.toNat * c.blockSize.toNat) _) (s.toNat * 8) :
        Outcome UInt64)
      k p) = _
    rw [uint64_eq (by rw [slice, List.length_drop, List.length_take]; omega),
      u64At_slice (by omega)]
    rfl

/-! ### Agreement -/

/-- A walk that finds what the lookup found, if the lookup is valid, and reports an error
otherwise. -/
def Agrees (blocks : Nat) (x : Outcome UInt64) (r : List Nat × Nat) : Prop :=
  (Valid blocks r ∧ ∃ b, x = .ok b ∧ b.toNat = r.2) ∨ (¬ Valid blocks r ∧ ∃ e, x = fail e)

theorem Container.Fits.agrees_step (h : c.Fits img) {cur s : UInt64} {slots : List Nat}
    (hs : s.toNat ≤ c.usable.toNat) {e : Error} {k : UInt64 → Outcome UInt64}
    (hk : ∀ p, p ≠ 0 → Agrees c.nextFreeBlock.toNat (k p)
      (follow (img.pointer c.blockSize.toNat) p.toNat slots)) :
    Agrees c.nextFreeBlock.toNat
      (do
        let blk ← c.readBlock img cur
        let p ← (uint64 blk (s * 8).toNat : Outcome UInt64)
        if p = 0 then fail e else k p)
      (follow (img.pointer c.blockSize.toNat) cur.toNat (s.toNat :: slots)) := by
  rw [h.readPointer hs fun p => if p = 0 then fail e else k p]
  rw [Agrees, valid_follow_cons]
  by_cases hcur : cur = 0 ∨ c.nextFreeBlock ≤ cur
  · rw [if_pos hcur]
    refine .inr ⟨fun ⟨⟨hpos, hlt⟩, _⟩ => ?_, _, rfl⟩
    rcases hcur with rfl | hle
    · exact lt_irrefl 0 hpos
    · exact absurd hlt (not_lt.mpr (UInt64.le_iff_toNat_le.mp hle))
  rw [if_neg hcur]
  rw [not_or, UInt64.not_le] at hcur
  have hin : 0 < cur.toNat ∧ cur.toNat < c.nextFreeBlock.toNat := by
    refine ⟨Nat.pos_of_ne_zero fun h0 => hcur.1 ?_, UInt64.lt_iff_toNat_lt.mp hcur.2⟩
    exact UInt64.toNat_inj.mp h0
  have hptr : img.pointer c.blockSize.toNat cur.toNat s.toNat =
      (u64At img.bytes (cur.toNat * c.blockSize.toNat + s.toNat * 8)).toNat := rfl
  generalize u64At img.bytes (cur.toNat * c.blockSize.toNat + s.toNat * 8) = p at hptr
  rw [hptr]
  by_cases hnull : p = 0
  · rw [if_pos hnull, hnull]
    refine .inr ⟨fun ⟨_, hvalid⟩ => ?_, e, rfl⟩
    have hself : Valid c.nextFreeBlock.toNat (follow (img.pointer c.blockSize.toNat) cur.toNat
        (s.toNat :: slots)) := by
      rw [valid_follow_cons, hptr, hnull]
      exact ⟨hin, hvalid⟩
    rw [follow, hptr, hnull, if_pos (by decide)] at hself
    exact hself.1 rfl
  · rw [if_neg hnull]
    have hp : p.toNat ≠ 0 := fun h0 => hnull (UInt64.toNat_inj.mp h0)
    rcases hk p hnull with ⟨hvalid, b, hb, hval⟩ | ⟨hinvalid, herr⟩
    · refine .inl ⟨⟨hin, hvalid⟩, b, hb, ?_⟩
      rw [follow, hptr, if_neg hp]
      exact hval
    · exact .inr ⟨fun ⟨_, hvalid⟩ => hinvalid hvalid, herr⟩

theorem Container.Fits.fails_step (h : c.Fits img) {cur s : UInt64}
    (hs : s.toNat ≤ c.usable.toNat) {e : Error} {k : UInt64 → Outcome UInt64}
    (hk : ∀ p, p ≠ 0 → ∃ e, k p = fail e) :
    ∃ e', (do
        let blk ← c.readBlock img cur
        let p ← (uint64 blk (s * 8).toNat : Outcome UInt64)
        if p = 0 then fail e else k p) = fail e' := by
  rw [h.readPointer hs fun p => if p = 0 then fail e else k p]
  split
  · exact ⟨_, rfl⟩
  · split
    · exact ⟨_, rfl⟩
    · next hnull => exact hk _ hnull

/-! ### Level capacities -/

theorem levelCapacity_toNat {usable : UInt64} (hpos : 0 < usable.toNat) {level : Nat}
    (h : usable.toNat ^ level < 2 ^ 64) :
    (levelCapacity usable level).toNat = usable.toNat ^ level := by
  induction level with
  | zero => rfl
  | succ level ih =>
    have hle : usable.toNat ^ level ≤ usable.toNat ^ (level + 1) :=
      Nat.pow_le_pow_right hpos (Nat.le_succ level)
    rw [levelCapacity, UInt64.toNat_mul, ih (lt_of_le_of_lt hle h), ← pow_succ,
      Nat.mod_eq_of_lt h]

theorem Container.Fits.descend_agrees (h : c.Fits img) (e : FileEntry) (blockIdx : UInt64)
    {below : Nat} {idx cur : UInt64} (hcap : c.usable.toNat ^ (below + 1) < 2 ^ 64)
    (hidx : idx.toNat < c.usable.toNat ^ (below + 1)) :
    Agrees c.nextFreeBlock.toNat (c.descend (c.readBlock img) e blockIdx below idx cur)
      (follow (img.pointer c.blockSize.toNat) cur.toNat
        (slotsIn c.usable.toNat (below + 1) idx.toNat)) := by
  obtain ⟨-, hpos⟩ := h.blockSize_eq
  induction below generalizing idx cur with
  | zero =>
    rw [zero_add, pow_one] at hidx
    have hslots : slotsIn c.usable.toNat (0 + 1) idx.toNat = [idx.toNat] := by
      rw [slotsIn, slotsIn, pow_zero, Nat.div_one]
    rw [hslots]
    refine h.agrees_step (le_of_lt hidx) (k := fun p => if c.nextFreeBlock ≤ p then
      fail (.truncated (decodeName e.name) blockIdx p c.nextFreeBlock) else .ok p) fun p hp => ?_
    rw [follow]
    by_cases hle : c.nextFreeBlock ≤ p
    · rw [if_pos hle]
      refine .inr ⟨fun hvalid => ?_, _, rfl⟩
      exact absurd hvalid.2.2 (not_lt.mpr (UInt64.le_iff_toNat_le.mp hle))
    · rw [if_neg hle]
      refine .inl ⟨⟨fun h0 => hp (UInt64.toNat_inj.mp h0), List.forall_mem_nil _, ?_⟩, p, rfl, rfl⟩
      exact UInt64.lt_iff_toNat_lt.mp (UInt64.not_le.mp hle)
  | succ below ih =>
    have hlower : c.usable.toNat ^ (below + 1) < 2 ^ 64 :=
      lt_of_le_of_lt (Nat.pow_le_pow_right hpos (Nat.le_succ _)) hcap
    have hsub := levelCapacity_toNat hpos hlower
    have hquot : (idx / levelCapacity c.usable (below + 1)).toNat =
        idx.toNat / c.usable.toNat ^ (below + 1) := by
      rw [UInt64.toNat_div, hsub]
    have hrem : (idx % levelCapacity c.usable (below + 1)).toNat =
        idx.toNat % c.usable.toNat ^ (below + 1) := by
      rw [UInt64.toNat_mod, hsub]
    have hslot : idx.toNat / c.usable.toNat ^ (below + 1) < c.usable.toNat := by
      refine Nat.div_lt_of_lt_mul ?_
      rw [← pow_succ]
      exact hidx
    rw [slotsIn, ← hquot, ← hrem]
    refine h.agrees_step (by rw [hquot]; exact le_of_lt hslot) fun p _ => ih hlower ?_
    rw [hrem]
    exact Nat.mod_lt _ (Nat.pow_pos hpos)

/-- The lookup from the head block of a level on. -/
def lookupFrom (readPtr : Nat → Nat → Nat) (u above level cur i : Nat) : List Nat × Nat :=
  match levelOf u (above + 1) level i with
  | none => ([], 0)
  | some (l, j) => follow readPtr cur (List.replicate (l - level) u ++ slotsIn u l j)

theorem bind_ite_fail {α β : Type} {p : Prop} [Decidable p] {e : Error} {x : Outcome α}
    {f : α → Outcome β} :
    ((if p then liftM (fail e : Outcome α) else x) >>= f) = if p then fail e else x >>= f := by
  split
  · rfl
  · rfl

theorem not_valid_null (blocks : Nat) : ¬ Valid blocks ([], 0) := fun h => h.1 rfl

/-- If the blocks of a level are within the `u64` range of a file, the capacity of the next level
does not wrap. -/
theorem Container.Fits.nextCapacity (h : c.Fits img) {level : Nat}
    (hfits : c.usable.toNat ^ level * c.blockSize.toNat < 2 ^ 64) :
    c.usable.toNat ^ (level + 1) < 2 ^ 64 ∧
      (levelCapacity c.usable (level + 1)).toNat = c.usable.toNat ^ (level + 1) := by
  obtain ⟨hsize, hpos⟩ := h.blockSize_eq
  have hcap : c.usable.toNat ^ (level + 1) < 2 ^ 64 := by
    refine lt_of_le_of_lt ?_ hfits
    rw [pow_succ]
    exact Nat.mul_le_mul_left _ (by omega)
  exact ⟨hcap, levelCapacity_toNat hpos hcap⟩

theorem Container.Fits.covered_agrees (h : c.Fits img) (e : FileEntry) (blockIdx : UInt64)
    {above level : Nat} {idx : UInt64} (cur : UInt64) (hlevel : above + (level + 1) = maxMapLevels)
    (hfits : c.usable.toNat ^ level * c.blockSize.toNat < 2 ^ 64)
    (hlt : idx.toNat < c.usable.toNat ^ (level + 1)) :
    Agrees c.nextFreeBlock.toNat
      (c.ascend (c.readBlock img) e blockIdx above idx cur >>= fun (idx, level, cur) =>
        c.descend (c.readBlock img) e blockIdx (level - 1) idx cur)
      (lookupFrom (img.pointer c.blockSize.toNat) c.usable.toNat above (level + 1) cur.toNat
        idx.toNat) := by
  obtain ⟨hcap, hcapacity⟩ := h.nextCapacity hfits
  have hsub : maxMapLevels - above = level + 1 := by omega
  have hidx : idx < levelCapacity c.usable (maxMapLevels - above) := by
    rw [hsub, UInt64.lt_iff_toNat_lt, hcapacity]
    exact hlt
  rw [Container.ascend.eq_def]
  dsimp only
  rw [if_pos hidx, hsub, lookupFrom, levelOf, if_pos hlt]
  dsimp only
  rw [Nat.sub_self, List.replicate_zero, List.nil_append]
  exact h.descend_agrees e blockIdx hcap hlt

theorem Container.Fits.ascend_agrees (h : c.Fits img) (e : FileEntry) {blockIdx : UInt64}
    (hfile : blockIdx.toNat * c.blockSize.toNat < 2 ^ 64) {above level : Nat} {idx cur : UInt64}
    (hlevel : above + (level + 1) = maxMapLevels) (hidx : idx.toNat ≤ blockIdx.toNat)
    (hfits : c.usable.toNat ^ level * c.blockSize.toNat < 2 ^ 64) :
    Agrees c.nextFreeBlock.toNat
      (c.ascend (c.readBlock img) e blockIdx above idx cur >>= fun (idx, level, cur) =>
        c.descend (c.readBlock img) e blockIdx (level - 1) idx cur)
      (lookupFrom (img.pointer c.blockSize.toNat) c.usable.toNat above (level + 1) cur.toNat
        idx.toNat) := by
  induction above generalizing level idx cur with
  | zero =>
    by_cases hlt : idx.toNat < c.usable.toNat ^ (level + 1)
    · exact h.covered_agrees e blockIdx cur hlevel hfits hlt
    obtain ⟨-, hcapacity⟩ := h.nextCapacity hfits
    rw [Container.ascend.eq_def]
    dsimp only
    rw [if_neg (by
      rw [UInt64.lt_iff_toNat_lt, show maxMapLevels - 0 = level + 1 by omega, hcapacity]
      exact hlt), lookupFrom, levelOf, if_neg hlt, levelOf]
    exact .inr ⟨not_valid_null _, _, rfl⟩
  | succ above ih =>
    by_cases hlt : idx.toNat < c.usable.toNat ^ (level + 1)
    · exact h.covered_agrees e blockIdx cur hlevel hfits hlt
    obtain ⟨-, hcapacity⟩ := h.nextCapacity hfits
    have hsub : maxMapLevels - (above + 1) = level + 1 := by omega
    have hle : levelCapacity c.usable (level + 1) ≤ idx := by
      rw [UInt64.le_iff_toNat_le, hcapacity]
      exact not_lt.mp hlt
    have hrest : (idx - levelCapacity c.usable (level + 1)).toNat =
        idx.toNat - c.usable.toNat ^ (level + 1) := by
      rw [UInt64.toNat_sub_of_le _ _ hle, hcapacity]
    have hnext : ∀ p : UInt64, Agrees c.nextFreeBlock.toNat
        (c.ascend (c.readBlock img) e blockIdx above (idx - levelCapacity c.usable (level + 1)) p >>=
          fun (idx, level, cur) => c.descend (c.readBlock img) e blockIdx (level - 1) idx cur)
        (lookupFrom (img.pointer c.blockSize.toNat) c.usable.toNat above (level + 1 + 1) p.toNat
          (idx.toNat - c.usable.toNat ^ (level + 1))) := by
      intro p
      rw [← hrest]
      exact ih (by omega) (by omega)
        (lt_of_le_of_lt (Nat.mul_le_mul_right _ ((not_lt.mp hlt).trans hidx)) hfile)
    rw [Container.ascend.eq_def]
    dsimp only
    rw [hsub, if_neg (by rw [UInt64.lt_iff_toNat_lt, hcapacity]; exact hlt), bind_assoc]
    simp only [bind_assoc, bind_ite_fail]
    rw [lookupFrom, levelOf, if_neg hlt]
    simp only [lookupFrom] at hnext
    cases hlev : levelOf c.usable.toNat (above + 1) (level + 1 + 1)
        (idx.toNat - c.usable.toNat ^ (level + 1)) with
    | some lj =>
      obtain ⟨l, j⟩ := lj
      rw [hlev] at hnext
      obtain ⟨-, l', rfl, hl', -⟩ := levelOf_spec hlev
      have hchain : l' + 1 - (level + 1) = l' + 1 - (level + 1 + 1) + 1 := by omega
      dsimp only
      rw [hchain, List.replicate_succ, List.cons_append]
      exact h.agrees_step (le_refl _) fun p _ => hnext p
    | none =>
      rw [hlev] at hnext
      refine .inr ⟨not_valid_null _, h.fails_step (le_refl _) fun p _ => ?_⟩
      rcases hnext p with ⟨hvalid, -⟩ | ⟨-, herr⟩
      · exact absurd hvalid (not_valid_null _)
      · exact herr

theorem Container.Fits.resolveDataBlock_agrees (h : c.Fits img) (e : FileEntry) {i : UInt64}
    (hi : i.toNat * c.blockSize.toNat < 2 ^ 64) :
    Agrees c.nextFreeBlock.toNat (c.resolveDataBlock (c.readBlock img) e i)
      (lookupDataBlock (img.pointer c.blockSize.toNat) c.usable.toNat e.mapBlock.toNat
        i.toNat) := by
  have hlookup : lookupDataBlock (img.pointer c.blockSize.toNat) c.usable.toNat e.mapBlock.toNat
      i.toNat = lookupFrom (img.pointer c.blockSize.toNat) c.usable.toNat (maxMapLevels - 1)
        (0 + 1) e.mapBlock.toNat i.toNat := by
    rw [lookupDataBlock, slotPath, lookupFrom]
    change _ = match levelOf c.usable.toNat maxMapLevels 1 i.toNat with
      | none => ([], 0)
      | some (l, j) => _
    cases levelOf c.usable.toNat maxMapLevels 1 i.toNat with
    | none => rfl
    | some lj => rfl
  rw [hlookup]
  refine h.ascend_agrees e hi rfl (le_refl _) ?_
  rw [pow_zero, Nat.one_mul]
  exact lt_trans h.blockSize_lt (by decide)

end

/-- **The block mapping is the producer's.** For an index below the number of blocks of an entry,
whatever mapping blocks are cached: the reader resolves it to `b` exactly if the producer's lookup
over unbounded integers finds `b` without leaving the container, and reports an error otherwise;
the capacity of every level it looks at is computed without wrapping; and no other index has the
same path. -/
theorem resolveDataBlock_eq_lookup {c : Container} {img : Image} (h : c.Fits img)
    {cache : BlockCache} (hcache : c.Consistent img cache) (e : FileEntry) {i : UInt64}
    (hi : i.toNat < (e.size.toNat + c.blockSize.toNat - 1) / c.blockSize.toNat) :
    (∀ b : UInt64, (∃ cache', (c.resolveDataBlock (c.cachedBlock img) e i).run cache =
        .ok (b, cache')) ↔
      Valid c.nextFreeBlock.toNat (lookupDataBlock (img.pointer c.blockSize.toNat)
        c.usable.toNat e.mapBlock.toNat i.toNat) ∧
      (lookupDataBlock (img.pointer c.blockSize.toNat) c.usable.toNat e.mapBlock.toNat
        i.toNat).2 = b.toNat) ∧
    (¬ Valid c.nextFreeBlock.toNat (lookupDataBlock (img.pointer c.blockSize.toNat)
        c.usable.toNat e.mapBlock.toNat i.toNat) →
      ∃ err, (c.resolveDataBlock (c.cachedBlock img) e i).run cache = fail err) ∧
    (∀ level < maxMapLevels, covered c.usable.toNat level ≤ i.toNat →
      (levelCapacity c.usable (level + 1)).toNat = c.usable.toNat ^ (level + 1)) ∧
    ∀ j p, slotPath c.usable.toNat i.toNat = some p → slotPath c.usable.toNat j = some p →
      i.toNat = j := by
  have hbs : 0 < c.blockSize.toNat := lt_of_lt_of_le (by decide) h.le_blockSize
  have hfile : i.toNat * c.blockSize.toNat < 2 ^ 64 := by
    have := (Nat.le_div_iff_mul_le hbs).mp hi
    rw [Nat.succ_mul] at this
    have := e.size.toNat_lt
    omega
  obtain ⟨cache', -, hrun⟩ := c.resolveDataBlock_tracks img e i cache hcache
  have hagrees := h.resolveDataBlock_agrees e hfile
  refine ⟨fun b => ?_, fun hinvalid => ?_, fun level _ hlevel => ?_,
    fun j p hp hj => slotPath_injective hp hj⟩
  · rcases hagrees with ⟨hvalid, b', hb', hval⟩ | ⟨hinvalid, err, herr⟩
    · rw [hrun, hb']
      constructor
      · rintro ⟨cache'', hb⟩
        cases hb
        exact ⟨hvalid, hval.symm⟩
      · rintro ⟨-, hb⟩
        obtain rfl : b' = b := UInt64.toNat_inj.mp (hval.trans hb)
        exact ⟨cache', rfl⟩
    · rw [hrun, herr]
      constructor
      · rintro ⟨cache'', hb⟩
        cases hb
      · rintro ⟨hvalid, -⟩
        exact absurd hvalid hinvalid
  · rcases hagrees with ⟨hvalid, -⟩ | ⟨-, err, herr⟩
    · exact absurd hvalid hinvalid
    · exact ⟨err, by rw [hrun, herr]; rfl⟩
  · refine (h.nextCapacity ?_).2
    cases level with
    | zero =>
      rw [pow_zero, Nat.one_mul]
      exact lt_trans h.blockSize_lt (by decide)
    | succ level =>
      rw [covered] at hlevel
      refine lt_of_le_of_lt (Nat.mul_le_mul_right _ ?_) hfile
      omega

/-- A container of four blocks of 64 bytes with one internal file, of 70 bytes. -/
def twoBlocks : Image where
  bytes := magic ++ [4, 0, 0] ++ le32 64 ++ le32 2 ++
    le64 70 ++ le64 1 ++ le64 11 ++ List.replicate 24 0 ++
    le64 2 ++ le64 3 ++ List.replicate 48 0 ++ List.replicate 64 1 ++ List.replicate 64 2
  length_lt := by decide +kernel

def twoBlocksContainer : Container where
  blockSize := 64
  maxShards := 0
  version := 4
  encryption := 0
  entryBase := 16
  entryCount := 2
  block0 := twoBlocks.bytes.take 64
  nextFreeBlock := 4
  fileSize := 256

def twoBlocksEntry : FileEntry where
  size := 70
  mapBlock := 1
  name := 11
  slot := 0

theorem twoBlocks_fits : twoBlocksContainer.Fits twoBlocks where
  blockSize_mod := by decide
  le_blockSize := by decide
  blockSize_lt := by decide
  nextFreeBlock := by decide +kernel

theorem resolveDataBlock_eq_lookup_twoBlocks :
    ∃ cache', (twoBlocksContainer.resolveDataBlock (twoBlocksContainer.cachedBlock twoBlocks)
      twoBlocksEntry 1).run [] = .ok (3, cache') := by
  refine ((resolveDataBlock_eq_lookup twoBlocks_fits (twoBlocksContainer.consistent_nil _)
    twoBlocksEntry (i := 1) (by decide)).1 3).mpr ⟨⟨?_, ?_, ?_⟩, ?_⟩
  · decide +kernel
  · decide +kernel
  · decide +kernel
  · decide +kernel

end Ctfs
