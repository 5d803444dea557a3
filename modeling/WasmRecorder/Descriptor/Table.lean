import Mathlib

/-!
# Descriptor tables

The table of `internal/descriptor` maps 32-bit keys to items. Whether a key is taken is a bit in an
array of words; the items stand in an array of their own, of 64 slots for each word.

* `Table.insert`, `insertAt`, `delete`, `lookup`, `len`, `range`, `reset` — the operations. A
  result `none` is a panic: an index that is not in its array.
* `Table.entries` — the finite map that a table stands for. Every operation of a well-formed table
  is one of the map (`step_refines`), and so is every run (`table_is_map`).
-/

namespace Descriptor

/-! ### Words of bits -/

section Bits

variable {mask : BitVec 64} {i j : Nat}

/-- The test of a single bit. -/
def taken (mask : BitVec 64) (shift : Nat) : Bool := mask &&& (1#64 <<< shift) ≠ 0#64

theorem taken_eq (hj : j < 64) : taken mask j = mask.getLsbD j := by
  have hone : BitVec.twoPow 64 j ≠ 0#64 := by
    intro h
    have hbit := congrArg (·.getLsbD j) h
    simp [hj] at hbit
  rw [taken, ← BitVec.twoPow_eq, BitVec.and_twoPow]
  cases mask.getLsbD j <;> simp [hone]

theorem getLsbD_set (hi : i < 64) :
    (mask ||| 1#64 <<< i).getLsbD j = (mask.getLsbD j || decide (i = j)) := by
  rw [BitVec.getLsbD_or, ← BitVec.twoPow_eq, BitVec.getLsbD_twoPow, decide_eq_true hi,
    Bool.true_and]

theorem getLsbD_clear (hi : i < 64) (hj : j < 64) :
    (mask &&& ~~~(1#64 <<< i)).getLsbD j = (mask.getLsbD j && !decide (i = j)) := by
  rw [BitVec.getLsbD_and, BitVec.getLsbD_not, ← BitVec.twoPow_eq, BitVec.getLsbD_twoPow,
    decide_eq_true hi, decide_eq_true hj, Bool.true_and, Bool.true_and]

theorem cpopNatRec_eq (n : Nat) : mask.cpopNatRec n 0 = (List.range n).countP mask.getLsbD := by
  induction n with
  | zero => rfl
  | succ n ih =>
    rw [BitVec.cpopNatRec_succ, BitVec.cpopNatRec_add, ih, List.range_succ, List.countP_append]
    cases h : mask.getLsbD n <;> simp [h]

/-- A word that is not full has a lowest bit that is not set. -/
theorem ctz_not (h : ~~~mask ≠ 0#64) :
    (~~~mask).ctz.toNat < 64 ∧ mask.getLsbD (~~~mask).ctz.toNat = false ∧
      ∀ j < (~~~mask).ctz.toNat, mask.getLsbD j = true := by
  have hset := BitVec.getLsbD_true_ctz_of_ne_zero h
  rw [BitVec.getLsbD_not, Bool.and_eq_true, decide_eq_true_eq, Bool.not_eq_true'] at hset
  refine ⟨hset.1, hset.2, fun j hj => ?_⟩
  have hlow := BitVec.getLsbD_false_of_lt_ctz hj
  rwa [BitVec.getLsbD_not, decide_eq_true (hj.trans hset.1), Bool.true_and,
    Bool.not_eq_false'] at hlow

theorem getLsbD_of_full (h : ~~~mask = 0#64) (hj : j < 64) : mask.getLsbD j = true := by
  have hbit := congrArg (·.getLsbD j) h
  simpa [BitVec.getLsbD_not, hj] using hbit

end Bits

/-! ### The table -/

structure Table (α : Type) where
  masks : List (BitVec 64) := []
  items : List α := []
  deriving DecidableEq, Repr

namespace Table

variable {α : Type}

/-- The number of items. -/
def len (t : Table α) : Nat := (t.masks.map fun mask => mask.cpop.toNat).sum

/-- Room for `64 * n` more items. -/
def grow [Inhabited α] (t : Table α) (n : Nat) : Table α :=
  ⟨t.masks ++ List.replicate n 0#64, t.items ++ List.replicate (n * 64) default⟩

/-- The key of a bit of a word, in 32-bit arithmetic. -/
def keyAt (index shift : Nat) : Int32 := Int32.ofNat index * 64 + Int32.ofNat shift

/-- The items with one of them overwritten. -/
def store (items : List α) (key : Int32) (item : α) : Option (List α) :=
  if 0 ≤ key.toInt ∧ key.toInt < items.length then some (items.set key.toInt.toNat item) else none

/-- Take the lowest free slot of a word. -/
def occupy (t : Table α) (index : Nat) (item : α) : Option (Int32 × Table α) := do
  let mask ← t.masks[index]?
  let shift := (~~~mask).ctz.toNat
  let key := keyAt index shift
  let items ← store t.items key item
  return (key, ⟨t.masks.set index (mask ||| 1#64 <<< shift), items⟩)

/-- The first word from `offset` on that is not full. -/
def scan (t : Table α) (offset : Nat) : Option Nat :=
  ((t.masks.drop offset).findIdx? fun mask => ~~~mask ≠ 0#64).map (offset + ·)

/-- Put an item into the lowest free slot. When there is none the table grows by one word, in
which the search goes on. -/
def insert [Inhabited α] (t : Table α) (item : α) : Option ((Int32 × Bool) × Table α) := do
  let (key, t') ←
    match t.scan 0 with
    | some index => t.occupy index item
    | none => do
      let index ← (t.grow 1).scan t.masks.length
      (t.grow 1).occupy index item
  return ((key, 0 ≤ key), t')

/-- The item at a key. -/
def lookup (t : Table α) (key : Int32) : Option (Option α) :=
  if key < 0 then some none
  else if key.toInt < t.items.length then do
    let mask ← t.masks[key.toInt.toNat / 64]?
    if taken mask (key.toInt.toNat % 64) then return ← t.items[key.toInt.toNat]? else return none
  else some none

/-- Put an item at a key. -/
def insertAt [Inhabited α] (t : Table α) (item : α) (key : Int32) : Option (Bool × Table α) :=
  if key < 0 then some (false, t)
  else do
    let index := key.toInt.toNat / 64
    let t := t.grow (index + 1 - t.masks.length)
    let mask ← t.masks[index]?
    let items ← store t.items key item
    return (true, ⟨t.masks.set index (mask ||| 1#64 <<< (key.toInt.toNat % 64)), items⟩)

/-- Take the item at a key out. -/
def delete [Inhabited α] (t : Table α) (key : Int32) : Option (Table α) :=
  if key < 0 then some t
  else if key.toInt.toNat / 64 < t.masks.length then do
    let mask ← t.masks[key.toInt.toNat / 64]?
    if taken mask (key.toInt.toNat % 64) then do
      let items ← store t.items key default
      return ⟨t.masks.set (key.toInt.toNat / 64)
        (mask &&& ~~~(1#64 <<< (key.toInt.toNat % 64))), items⟩
    else return t
  else some t

/-- The keys of a word, upwards. -/
def keysOf (mask : BitVec 64) (i : Nat) : List Int32 :=
  if mask = 0#64 then [] else ((List.range 64).filter (taken mask)).map (keyAt i)

/-- What a callback is shown of the items at `keys`, until it asks to stop. -/
def visit (items : List α) (f : Int32 → α → Bool) : List Int32 → Option (List (Int32 × α))
  | [] => some []
  | key :: keys => do
    if key.toInt < 0 then none
    let item ← items[key.toInt.toNat]?
    if f key item then return (key, item) :: (← visit items f keys) else return [(key, item)]

/-- Show the items to a callback, upwards. -/
def range (t : Table α) (f : Int32 → α → Bool) : Option (List (Int32 × α)) :=
  visit t.items f (t.masks.zipIdx.flatMap fun (mask, i) => keysOf mask i)

/-- Clear the content. -/
def reset [Inhabited α] (t : Table α) : Table α :=
  ⟨t.masks.map fun _ => 0#64, t.items.map fun _ => default⟩

/-! ### The map a table stands for -/

variable {t t' : Table α} {k : Nat} {key : Int32} {item a : α}

/-- The bit of a key is set. -/
def Holds (t : Table α) (k : Nat) : Prop :=
  ∃ mask, t.masks[k / 64]? = some mask ∧ mask.getLsbD (k % 64) = true

instance (t : Table α) (k : Nat) : Decidable (t.Holds k) :=
  decidable_of_iff ((t.masks[k / 64]?).any (·.getLsbD (k % 64))) (by
    rw [Option.any_eq_true]
    rfl)

/-- The item at every key. -/
def entries (t : Table α) (k : Nat) : Option α := if t.Holds k then t.items[k]? else none

/-- There are 64 slots for each word, and every slot has a 32-bit key. -/
structure WF (t : Table α) : Prop where
  length_items : t.items.length = 64 * t.masks.length
  length_masks : t.masks.length ≤ 2 ^ 25

theorem wf_empty : WF ({} : Table α) := ⟨rfl, Nat.zero_le _⟩

theorem Holds.lt (hwf : t.WF) (h : t.Holds k) : k < t.items.length ∧ k < 2 ^ 31 := by
  obtain ⟨mask, hmask, -⟩ := h
  have hlt := (List.getElem?_eq_some_iff.mp hmask).1
  have hitems := hwf.length_items
  have hmasks := hwf.length_masks
  omega

theorem entries_eq_none_iff (hwf : t.WF) : t.entries k = none ↔ ¬ t.Holds k := by
  rw [entries]
  split
  · next h =>
    rw [List.getElem?_eq_none_iff]
    exact iff_of_false (not_le.mpr (h.lt hwf).1) (not_not_intro h)
  · next h => exact iff_of_true rfl h

theorem keyAt_eq (index shift : Nat) : keyAt index shift = Int32.ofNat (64 * index + shift) := by
  rw [keyAt, Int32.ofNat_add, Int32.ofNat_mul, Int32.mul_comm]
  rfl

theorem toInt_of_nonneg (h : ¬ key < 0) : (key.toInt.toNat : Int) = key.toInt := by
  rw [Int32.lt_iff_toInt_lt, Int32.toInt_zero, not_lt] at h
  exact Int.toNat_of_nonneg h

theorem toNat_lt (key : Int32) : key.toInt.toNat < 2 ^ 31 := by
  have h := key.toInt_lt
  omega

theorem ofNat_toNat (h : ¬ key < 0) : Int32.ofNat key.toInt.toNat = key := by
  rw [← Int32.toInt_inj, Int32.toInt_ofNat_of_lt (toNat_lt key), toInt_of_nonneg h]

theorem store_of_lt {items : List α} (hk : k < items.length) (hlt : k < 2 ^ 31) :
    store items (Int32.ofNat k) item = some (items.set k item) := by
  have hkey : (Int32.ofNat k).toInt = k := Int32.toInt_ofNat_of_lt hlt
  rw [store, hkey, if_pos ⟨by omega, by omega⟩, Int.toNat_natCast]

/-! ### Changing one slot -/

section Slot

variable {mask mask' : BitVec 64}

theorem holds_set (hmask : t.masks[k / 64]? = some mask) {b : Bool} {items : List α}
    (hset : ∀ j < 64, mask'.getLsbD j = if k % 64 = j then b else mask.getLsbD j) (j : Nat) :
    Holds ⟨t.masks.set (k / 64) mask', items⟩ j ↔ if k = j then b = true else t.Holds j := by
  have hlt := (List.getElem?_eq_some_iff.mp hmask).1
  -- in the word that was written the other bits are as before; the other words are untouched
  by_cases hword : k / 64 = j / 64
  · have hgetj : t.masks[j / 64]? = some mask := hword ▸ hmask
    have hiff : k % 64 = j % 64 ↔ k = j := by omega
    simp only [Holds, ← hword, List.getElem?_set_self hlt, Option.some.injEq, exists_eq_left',
      hmask, hset _ (Nat.mod_lt j (by decide)), hiff]
    split <;> rfl
  · have hne : k ≠ j := fun h => hword (h ▸ rfl)
    simp only [Holds, List.getElem?_set_ne hword, if_neg hne]

theorem entries_set (hmask : t.masks[k / 64]? = some mask) {b : Bool} (hk : k < t.items.length)
    (hset : ∀ j < 64, mask'.getLsbD j = if k % 64 = j then b else mask.getLsbD j) :
    entries ⟨t.masks.set (k / 64) mask', t.items.set k item⟩ =
      Function.update t.entries k (if b then some item else none) := by
  funext j
  rw [entries]
  simp only [holds_set hmask hset]
  by_cases hj : j = k
  · subst hj
    rw [Function.update_self]
    simp only [if_true, List.getElem?_set_self hk]
  · rw [Function.update_of_ne hj, entries]
    simp only [if_neg (Ne.symm hj), List.getElem?_set_ne (Ne.symm hj)]

theorem entries_fill (hmask : t.masks[k / 64]? = some mask) (hk : k < t.items.length) :
    entries ⟨t.masks.set (k / 64) (mask ||| 1#64 <<< (k % 64)), t.items.set k item⟩ =
      Function.update t.entries k (some item) := by
  refine entries_set (b := true) hmask hk fun j _ => ?_
  rw [getLsbD_set (Nat.mod_lt k (by decide))]
  by_cases hj : k % 64 = j <;> simp [hj]

theorem entries_clear (hmask : t.masks[k / 64]? = some mask) (hk : k < t.items.length) :
    entries ⟨t.masks.set (k / 64) (mask &&& ~~~(1#64 <<< (k % 64))), t.items.set k item⟩ =
      Function.update t.entries k none := by
  refine entries_set (b := false) hmask hk fun j hj => ?_
  rw [getLsbD_clear (Nat.mod_lt k (by decide)) hj]
  by_cases hj : k % 64 = j <;> simp [hj]

theorem WF.set (hwf : t.WF) : WF ⟨t.masks.set (k / 64) mask', t.items.set k item⟩ :=
  ⟨by rw [List.length_set, List.length_set, hwf.length_items],
    (List.length_set ..).le.trans hwf.length_masks⟩

end Slot

/-! ### Growing -/

theorem WF.grow [Inhabited α] (hwf : t.WF) {n : Nat}
    (hn : t.masks.length + n ≤ 2 ^ 25) : (t.grow n).WF := by
  have hitems := hwf.length_items
  constructor <;> simp only [Table.grow, List.length_append, List.length_replicate] <;> omega

theorem entries_grow [Inhabited α] (hwf : t.WF) (n : Nat) : (t.grow n).entries = t.entries := by
  have hitems := hwf.length_items
  funext k
  rw [entries, entries]
  -- the words that are added hold nothing
  have hholds : (t.grow n).Holds k ↔ t.Holds k := by
    rw [Holds, Table.grow]
    by_cases hk : k / 64 < t.masks.length
    · rw [List.getElem?_append_left hk]
      rfl
    · refine iff_of_false ?_ fun ⟨_, h, _⟩ => hk (List.getElem?_eq_some_iff.mp h).1
      rintro ⟨mask, hmask, hbit⟩
      rw [List.getElem?_append_right (not_lt.mp hk)] at hmask
      obtain rfl := (List.mem_replicate.mp (List.mem_of_getElem? hmask)).2
      simp at hbit
  by_cases h : t.Holds k
  · have hk : k < t.items.length := (h.lt hwf).1
    rw [if_pos (hholds.mpr h), if_pos h, Table.grow, List.getElem?_append_left hk]
  · rw [if_neg (hholds.not.mpr h), if_neg h]

/-! ### The lowest free key -/

/-- Taking the lowest free slot of the first word with room takes the lowest free key. -/
theorem occupy_spec (hwf : t.WF) {index : Nat} {mask : BitVec 64}
    (hmask : t.masks[index]? = some mask) (hroom : ~~~mask ≠ 0#64)
    (hfull : ∀ i < index, ∀ m, t.masks[i]? = some m → ~~~m = 0#64) (item : α) :
    ∃ k < 2 ^ 31, ¬ t.Holds k ∧ (∀ j < k, t.Holds j) ∧
      ∃ t', t.occupy index item = some (Int32.ofNat k, t') ∧ t'.WF ∧
        t'.entries = Function.update t.entries k (some item) := by
  have hlt := (List.getElem?_eq_some_iff.mp hmask).1
  have hitems := hwf.length_items
  have hmasks := hwf.length_masks
  -- the first bit of the word that is not set
  obtain ⟨hshift, hfree, hlow⟩ := ctz_not hroom
  generalize hs : (~~~mask).ctz.toNat = shift at hshift hfree hlow
  obtain ⟨k, hk, hdiv, hmod⟩ : ∃ k, k = 64 * index + shift ∧ k / 64 = index ∧ k % 64 = shift :=
    ⟨64 * index + shift, rfl, by omega, by omega⟩
  have hmask' : t.masks[k / 64]? = some mask := hdiv ▸ hmask
  refine ⟨k, by omega, ?_, fun j hj => ?_,
    ⟨t.masks.set (k / 64) (mask ||| 1#64 <<< (k % 64)), t.items.set k item⟩, ?_, hwf.set,
    entries_fill hmask' (by omega)⟩
  -- free, since the bit is not set; and everything below is taken, in this word or in a full one
  · rintro ⟨m, hm, hbit⟩
    cases hmask'.symm.trans hm
    rw [hmod, hfree] at hbit
    cases hbit
  · by_cases hword : j / 64 = index
    · exact ⟨mask, hword ▸ hmask, hlow _ (by omega)⟩
    · have hj' : j / 64 < t.masks.length := by omega
      exact ⟨t.masks[j / 64], List.getElem?_eq_getElem hj',
        getLsbD_of_full (hfull _ (by omega) _ (List.getElem?_eq_getElem hj'))
          (Nat.mod_lt _ (by decide))⟩
  -- the key is below the number of items, so that the store does not panic
  · rw [occupy, hmask]
    simp only [Option.bind_eq_bind, Option.bind_some, Option.pure_def]
    rw [hs, keyAt_eq, ← hk, store_of_lt (by omega) (by omega), hdiv, hmod]
    rfl

theorem scan_eq_some {offset index : Nat} (h : t.scan offset = some index) :
    offset ≤ index ∧ (∃ mask, t.masks[index]? = some mask ∧ ~~~mask ≠ 0#64) ∧
      ∀ i, offset ≤ i → i < index → ∀ m, t.masks[i]? = some m → ~~~m = 0#64 := by
  rw [scan, Option.map_eq_some_iff] at h
  obtain ⟨n, hn, rfl⟩ := h
  obtain ⟨hlt, hroom, hfull⟩ := List.findIdx?_eq_some_iff_getElem.mp hn
  refine ⟨Nat.le_add_right _ _, ⟨_, ?_, of_decide_eq_true hroom⟩, fun i hle hi m hm => ?_⟩
  · rw [← List.getElem?_drop, List.getElem?_eq_getElem hlt]
  -- the search over the rest of the words, as one over all of them
  · have hnot := hfull (i - offset) (by omega)
    have hget : (t.masks.drop offset)[i - offset]? = some m := by
      rw [List.getElem?_drop, Nat.add_sub_cancel' hle, hm]
    obtain ⟨_, hget⟩ := List.getElem?_eq_some_iff.mp hget
    rw [hget, decide_eq_true_eq, not_not] at hnot
    exact hnot

theorem scan_eq_none {offset : Nat} (h : t.scan offset = none) :
    ∀ i, offset ≤ i → ∀ m, t.masks[i]? = some m → ~~~m = 0#64 := by
  intro i hi m hm
  rw [scan, Option.map_eq_none_iff, List.findIdx?_eq_none_iff] at h
  have hmem : m ∈ t.masks.drop offset := by
    refine List.mem_of_getElem? (i := i - offset) ?_
    rw [List.getElem?_drop, Nat.add_sub_cancel' hi, hm]
  exact not_not.mp (of_decide_eq_false (h m hmem))

theorem scan_grow [Inhabited α] (t : Table α) :
    (t.grow 1).scan t.masks.length = some t.masks.length := by
  rw [scan, Table.grow, List.drop_left]
  rfl

theorem holds_of_full (hfull : ∀ i, 0 ≤ i → ∀ m, t.masks[i]? = some m → ~~~m = 0#64)
    (hk : k / 64 < t.masks.length) : t.Holds k :=
  ⟨t.masks[k / 64], List.getElem?_eq_getElem hk,
    getLsbD_of_full (hfull _ (Nat.zero_le _) _ (List.getElem?_eq_getElem hk))
      (Nat.mod_lt _ (by decide))⟩

/-! ### Looking up -/

theorem lookup_spec (hwf : t.WF) (key : Int32) :
    t.lookup key = some (if key < 0 then none else t.entries key.toInt.toNat) := by
  have hitems := hwf.length_items
  by_cases hneg : key < 0
  · rw [lookup, if_pos hneg, if_pos hneg]
  have hcast := toInt_of_nonneg hneg
  rw [lookup, if_neg hneg, if_neg hneg]
  generalize key.toInt.toNat = k at hcast ⊢
  rw [← hcast]
  -- behind the items nothing is taken
  by_cases hk : k < t.items.length
  · have hword : k / 64 < t.masks.length := by omega
    have hiff : t.Holds k ↔ taken t.masks[k / 64] (k % 64) = true := by
      rw [taken_eq (Nat.mod_lt _ (by decide)), Holds, List.getElem?_eq_getElem hword]
      simp only [Option.some.injEq, exists_eq_left']
    rw [if_pos (Int.ofNat_lt.mpr hk), List.getElem?_eq_getElem hword, entries,
      if_congr hiff rfl rfl, List.getElem?_eq_getElem hk]
    simp only [Option.bind_eq_bind, Option.bind_some, Option.pure_def]
    split <;> rfl
  · have hnot : ¬ t.Holds k := fun h => hk (h.lt hwf).1
    rw [if_neg (Int.ofNat_lt.not.mpr hk), entries, if_neg hnot]

/-! ### Changing the table -/

section Operations

variable [Inhabited α]

/-- An insertion takes the least free key, and panics if all 32-bit keys are taken. -/
theorem insert_spec (hwf : t.WF) (item : α) :
    (∃ k < 2 ^ 31, ¬ t.Holds k ∧ (∀ j < k, t.Holds j) ∧
      ∃ t', t.insert item = some ((Int32.ofNat k, true), t') ∧ t'.WF ∧
        t'.entries = Function.update t.entries k (some item)) ∨
    ((∀ k < 2 ^ 31, t.Holds k) ∧ t.insert item = none) := by
  -- a key that the table can have is not negative
  have hok : ∀ k < 2 ^ 31, decide (0 ≤ Int32.ofNat k) = true := fun k hk => by
    rw [decide_eq_true_eq, Int32.le_iff_toInt_le, Int32.toInt_zero, Int32.toInt_ofNat_of_lt hk]
    omega
  cases hscan : t.scan 0 with
  | some index =>
    -- room in a word that is there
    obtain ⟨-, ⟨mask, hmask, hroom⟩, hfull⟩ := scan_eq_some hscan
    obtain ⟨k, hk, hfree, hlow, t', hocc, hwf', hent⟩ :=
      occupy_spec hwf hmask hroom (fun i hi => hfull i (Nat.zero_le i) hi) item
    refine Or.inl ⟨k, hk, hfree, hlow, t', ?_, hwf', hent⟩
    rw [Table.insert, hscan]
    simp only [hocc, Option.bind_eq_bind, Option.bind_some, Option.pure_def, hok k hk]
  | none =>
    -- all words are full: the table grows by one word, and the first of its bits is taken
    have hfull := scan_eq_none hscan
    have hinsert : t.insert item = ((t.grow 1).occupy t.masks.length item).bind fun r =>
        some ((r.1, decide (0 ≤ r.1)), r.2) := by
      rw [Table.insert, hscan]
      simp only [scan_grow, Option.bind_eq_bind, Option.bind_some, Option.pure_def]
    have hnew : (t.grow 1).masks[t.masks.length]? = some 0#64 := List.getElem?_concat_length
    by_cases hmax : t.masks.length < 2 ^ 25
    -- with less than `2 ^ 25` words the new key is still below `2 ^ 31`
    · have hfull' : ∀ i < t.masks.length, ∀ m, (t.grow 1).masks[i]? = some m → ~~~m = 0#64 := by
        intro i hi m hm
        rw [Table.grow, List.getElem?_append_left hi] at hm
        exact hfull i (Nat.zero_le i) m hm
      obtain ⟨k, hk, hfree, hlow, t', hocc, hwf', hent⟩ :=
        occupy_spec (hwf.grow (by omega)) hnew (by decide) hfull' item
      rw [entries_grow hwf] at hent
      have hsame : ∀ j, (t.grow 1).Holds j ↔ t.Holds j := fun j => by
        rw [← not_iff_not, ← entries_eq_none_iff (hwf.grow (by omega)), entries_grow hwf,
          entries_eq_none_iff hwf]
      refine Or.inl ⟨k, hk, (hsame k).not.mp hfree, fun j hj => (hsame j).mp (hlow j hj), t', ?_,
        hwf', hent⟩
      rw [hinsert, hocc, Option.bind_some, hok k hk]
    · -- the key of the new word is negative
      have hlen : t.masks.length = 2 ^ 25 := le_antisymm hwf.length_masks (not_lt.mp hmax)
      refine Or.inr ⟨fun k hk => holds_of_full hfull (by omega), ?_⟩
      rw [hinsert, occupy, hnew]
      simp only [Option.bind_eq_bind, Option.bind_some, Option.pure_def]
      -- it is the smallest number of 32 bits, and storing the item panics
      have hshift : (~~~0#64).ctz.toNat = 0 := Nat.eq_zero_of_not_pos fun hpos => by
        simpa using BitVec.getLsbD_false_of_lt_ctz hpos
      have hkey : (keyAt (2 ^ 25) 0).toInt = -2 ^ 31 := by
        rw [keyAt_eq]
        decide
      rw [hlen, hshift, store, hkey, if_neg fun h => absurd h.1 (by decide)]
      rfl

theorem insertAt_spec (hwf : t.WF) (item : α) (h : ¬ key < 0) :
    ∃ t', t.insertAt item key = some (true, t') ∧ t'.WF ∧
      t'.entries = Function.update t.entries key.toInt.toNat (some item) := by
  have hk := toNat_lt key
  have hmasks := hwf.length_masks
  rw [insertAt, if_neg h]
  have hkey := ofNat_toNat h
  generalize key.toInt.toNat = k at hk hkey ⊢
  subst hkey
  -- the table first grows so far that the word of the key is there
  have hwf' : (t.grow (k / 64 + 1 - t.masks.length)).WF := hwf.grow (by omega)
  have hitems := hwf'.length_items
  have hword : k / 64 < (t.grow (k / 64 + 1 - t.masks.length)).masks.length := by
    simp only [Table.grow, List.length_append, List.length_replicate]
    omega
  have hmask := List.getElem?_eq_getElem hword
  have hlt : k < (t.grow (k / 64 + 1 - t.masks.length)).items.length := by omega
  refine ⟨_, ?_, hwf'.set, (entries_fill hmask hlt).trans (by rw [entries_grow hwf])⟩
  simp only [hmask, store_of_lt hlt hk, Option.bind_eq_bind, Option.bind_some, Option.pure_def]

theorem delete_spec (hwf : t.WF) (key : Int32) :
    ∃ t', t.delete key = some t' ∧ t'.WF ∧
      t'.entries =
        if key < 0 then t.entries else Function.update t.entries key.toInt.toNat none := by
  have hitems := hwf.length_items
  by_cases hneg : key < 0
  · exact ⟨t, by rw [delete, if_pos hneg], hwf, by rw [if_pos hneg]⟩
  have hk := toNat_lt key
  rw [delete, if_neg hneg, if_neg hneg]
  have hkey := ofNat_toNat hneg
  generalize key.toInt.toNat = k at hk hkey ⊢
  subst hkey
  -- nothing changes where nothing was
  have hsame : ¬ t.Holds k → t.entries = Function.update t.entries k none := fun h =>
    ((Function.update_eq_self_iff ..).mpr ((entries_eq_none_iff hwf).mpr h).symm).symm
  by_cases hword : k / 64 < t.masks.length
  · have hmask := List.getElem?_eq_getElem hword
    rw [if_pos hword, hmask]
    simp only [Option.bind_eq_bind, Option.bind_some, Option.pure_def]
    -- a bit that is not set is left alone
    by_cases hbit : taken t.masks[k / 64] (k % 64) = true
    · rw [if_pos hbit, store_of_lt (by omega) hk, Option.bind_some]
      exact ⟨_, rfl, hwf.set, entries_clear hmask (by omega)⟩
    · rw [if_neg hbit]
      refine ⟨t, rfl, hwf, hsame ?_⟩
      rintro ⟨mask, hm, hset⟩
      cases hmask.symm.trans hm
      exact hbit ((taken_eq (Nat.mod_lt _ (by decide))).trans hset)
  · rw [if_neg hword]
    exact ⟨t, rfl, hwf, hsame fun ⟨_, hm, _⟩ => hword (List.getElem?_eq_some_iff.mp hm).1⟩

theorem reset_spec (hwf : t.WF) : t.reset.WF ∧ t.reset.entries = fun _ => none := by
  refine ⟨⟨by simp only [reset, List.length_map, hwf.length_items],
    (List.length_map _).le.trans hwf.length_masks⟩, funext fun k => if_neg ?_⟩
  rintro ⟨mask, hmask, hbit⟩
  rw [reset, List.getElem?_map, Option.map_eq_some_iff] at hmask
  obtain ⟨_, -, rfl⟩ := hmask
  simp at hbit

end Operations

/-! ### All entries -/

/-- The entries of a finite map, upwards. -/
structure Lists (m : Nat → Option α) (es : List (Nat × α)) : Prop where
  sorted : es.Pairwise (·.1 < ·.1)
  mem_iff : ∀ k a, (k, a) ∈ es ↔ m k = some a

/-- The taken keys, upwards. -/
def slots (t : Table α) : List Nat :=
  t.masks.zipIdx.flatMap fun (mask, i) => ((List.range 64).filter mask.getLsbD).map (64 * i + ·)

theorem mem_slots : k ∈ t.slots ↔ t.Holds k := by
  rw [slots, List.mem_flatMap]
  constructor
  · rintro ⟨⟨mask, i⟩, hmem, hk⟩
    obtain ⟨j, hj, rfl⟩ := List.mem_map.mp hk
    obtain ⟨hj, hbit⟩ := List.mem_filter.mp hj
    rw [List.mem_range] at hj
    -- a position of a bit is that of its word and that in the word
    have hdiv : (64 * i + j) / 64 = i := by omega
    have hmod : (64 * i + j) % 64 = j := by omega
    exact ⟨mask, by rw [hdiv]; exact List.mem_zipIdx_iff_getElem?.mp hmem, by rwa [hmod]⟩
  · rintro ⟨mask, hmask, hbit⟩
    refine ⟨(mask, k / 64), List.mem_zipIdx_iff_getElem?.mpr hmask, List.mem_map.mpr
      ⟨k % 64, List.mem_filter.mpr ⟨List.mem_range.mpr (Nat.mod_lt _ (by decide)), hbit⟩,
        Nat.div_add_mod k 64⟩⟩

theorem slots_sorted (t : Table α) : t.slots.Pairwise (· < ·) := by
  rw [slots, List.pairwise_flatMap]
  refine ⟨fun p _ => ?_, ?_⟩
  -- inside of a word, and from one word to the next
  · rw [List.pairwise_map]
    exact (List.pairwise_lt_range.filter _).imp fun h => Nat.add_lt_add_left h _
  · have hidx : t.masks.zipIdx.Pairwise (·.2 < ·.2) := by
      rw [← List.pairwise_map, List.zipIdx_map_snd]
      exact List.pairwise_lt_range'
    refine hidx.imp fun {p q} hlt x hx y hy => ?_
    obtain ⟨j, hj, rfl⟩ := List.mem_map.mp hx
    obtain ⟨j', -, rfl⟩ := List.mem_map.mp hy
    have hj64 := List.mem_range.mp (List.mem_filter.mp hj).1
    omega

/-- The taken keys with their items. -/
def listing (t : Table α) : List (Nat × α) :=
  t.slots.filterMap fun k => (t.items[k]?).map (k, ·)

theorem lists_listing (t : Table α) : Lists t.entries t.listing where
  sorted := by
    rw [listing, List.pairwise_filterMap]
    refine t.slots_sorted.imp fun hlt e he e' he' => ?_
    obtain ⟨_, -, rfl⟩ := Option.map_eq_some_iff.mp he
    obtain ⟨_, -, rfl⟩ := Option.map_eq_some_iff.mp he'
    exact hlt
  mem_iff k a := by
    rw [listing, List.mem_filterMap, entries]
    constructor
    · rintro ⟨k', hk', he⟩
      obtain ⟨a', ha', heq⟩ := Option.map_eq_some_iff.mp he
      cases heq
      rw [if_pos (mem_slots.mp hk'), ha']
    · intro h
      split at h
      · next hholds => exact ⟨k, mem_slots.mpr hholds, by rw [h]; rfl⟩
      · cases h

theorem len_eq (hwf : t.WF) : t.len = t.listing.length := by
  -- every slot that is taken has an item, and there are as many slots as bits
  have hall : t.listing.length = t.slots.length := by
    rw [listing, List.length_filterMap_eq_countP, List.countP_eq_length]
    intro k hk
    rw [List.getElem?_eq_getElem ((mem_slots.mp hk).lt hwf).1]
    rfl
  have hword : ∀ p : BitVec 64 × Nat,
      (((List.range 64).filter p.1.getLsbD).map (64 * p.2 + ·)).length = p.1.cpop.toNat := by
    intro p
    rw [List.length_map, BitVec.toNat_cpop, cpopNatRec_eq, List.countP_eq_length_filter]
  rw [hall, slots, List.length_flatMap, len]
  simp only [hword]
  rw [← Function.comp_def (fun mask : BitVec 64 => mask.cpop.toNat) Prod.fst, ← List.map_map,
    List.zipIdx_map_fst]

/-- What a callback is shown of a list of entries, until it asks to stop. -/
def shown (f : Int32 → α → Bool) : List (Nat × α) → List (Int32 × α)
  | [] => []
  | (k, a) :: es =>
    if f (Int32.ofNat k) a then (Int32.ofNat k, a) :: shown f es else [(Int32.ofNat k, a)]

theorem visit_eq {items : List α} (f : Int32 → α → Bool) {ks : List Nat}
    (hks : ∀ k ∈ ks, k < items.length ∧ k < 2 ^ 31) :
    visit items f (ks.map Int32.ofNat) =
      some (shown f (ks.filterMap fun k => (items[k]?).map (k, ·))) := by
  induction ks with
  | nil => rfl
  | cons k ks ih =>
    -- the key is read back as the position it was made of
    obtain ⟨hlen, hlt⟩ := hks k List.mem_cons_self
    have hget := List.getElem?_eq_getElem hlen
    have hkey : (Int32.ofNat k).toInt = k := Int32.toInt_ofNat_of_lt hlt
    rw [List.map_cons, visit, List.filterMap_cons, hget, hkey, if_neg (by omega),
      Int.toNat_natCast, hget, ih fun k' hk' => hks k' (List.mem_cons_of_mem _ hk')]
    simp only [Option.bind_eq_bind, Option.bind_some, Option.pure_def, Option.map_some, shown]
    split <;> rfl

theorem keysOf_eq (mask : BitVec 64) (i : Nat) :
    keysOf mask i = (((List.range 64).filter mask.getLsbD).map (64 * i + ·)).map Int32.ofNat := by
  rw [keysOf, List.map_map]
  split
  · next h =>
    have hnone : (List.range 64).filter mask.getLsbD = [] :=
      List.filter_eq_nil_iff.mpr fun j _ => by rw [h]; simp
    rw [hnone, List.map_nil]
  · rw [List.filter_congr fun j hj => taken_eq (List.mem_range.mp hj)]
    exact List.map_congr_left fun j _ => keyAt_eq i j

theorem range_spec (hwf : t.WF) (f : Int32 → α → Bool) : t.range f = some (shown f t.listing) := by
  have hkeys : (t.masks.zipIdx.flatMap fun (mask, i) => keysOf mask i) =
      t.slots.map Int32.ofNat := by
    rw [slots, List.map_flatMap]
    exact congrArg (List.flatMap · _) (funext fun p => keysOf_eq p.1 p.2)
  rw [range, hkeys]
  exact visit_eq f fun k hk => (mem_slots.mp hk).lt hwf

/-! ### Runs -/

end Table

/-- A call of the table's interface. -/
inductive Op (α : Type) where
  | insert (item : α)
  | insertAt (item : α) (key : Int32)
  | delete (key : Int32)
  | lookup (key : Int32)
  | len
  | range (f : Int32 → α → Bool)
  | reset

/-- What a call returns. -/
inductive Result (α : Type) where
  | inserted (key : Int32) (ok : Bool)
  | insertedAt (ok : Bool)
  | found (item : Option α)
  | length (n : Nat)
  | visited (entries : List (Int32 × α))
  | done

section Runs

variable {α : Type} [Inhabited α]

def Table.step (t : Table α) : Op α → Option (Result α × Table α)
  | .insert item => (t.insert item).map fun (r, t') => (.inserted r.1 r.2, t')
  | .insertAt item key => (t.insertAt item key).map fun (ok, t') => (.insertedAt ok, t')
  | .delete key => (t.delete key).map fun t' => (.done, t')
  | .lookup key => (t.lookup key).map fun item => (.found item, t)
  | .len => some (.length t.len, t)
  | .range f => (t.range f).map fun entries => (.visited entries, t)
  | .reset => some (.done, t.reset)

def Table.run (t : Table α) : List (Op α) → Option (List (Result α) × Table α)
  | [] => some ([], t)
  | op :: ops => do
    let (result, t) ← t.step op
    let (results, t) ← t.run ops
    return (result :: results, t)

/-- What a call does to a finite map with keys from `0` to `2 ^ 31 - 1`, and what it returns. -/
def Spec (m : Nat → Option α) : Op α → Result α → (Nat → Option α) → Prop
  | .insert item, r, m' => ∃ k < 2 ^ 31, m k = none ∧ (∀ j < k, m j ≠ none) ∧
      r = .inserted (Int32.ofNat k) true ∧ m' = Function.update m k (some item)
  | .insertAt item key, r, m' =>
      if key < 0 then r = .insertedAt false ∧ m' = m
      else r = .insertedAt true ∧ m' = Function.update m key.toInt.toNat (some item)
  | .delete key, r, m' =>
      r = .done ∧ m' = if key < 0 then m else Function.update m key.toInt.toNat none
  | .lookup key, r, m' => r = .found (if key < 0 then none else m key.toInt.toNat) ∧ m' = m
  | .len, r, m' => (∃ es, Table.Lists m es ∧ r = .length es.length) ∧ m' = m
  | .range f, r, m' => (∃ es, Table.Lists m es ∧ r = .visited (Table.shown f es)) ∧ m' = m
  | .reset, r, m' => r = .done ∧ m' = fun _ => none

/-- The calls of a list made on a finite map, one after the other. -/
inductive SpecRun : (Nat → Option α) → List (Op α) → List (Result α) → (Nat → Option α) → Prop
  | nil (m) : SpecRun m [] [] m
  | cons {m m' m'' op ops r rs} (hstep : Spec m op r m') (hrun : SpecRun m' ops rs m'') :
    SpecRun m (op :: ops) (r :: rs) m''

variable {t : Table α}

/-- A call of a well-formed table is one of its map, unless it inserts into a full one. -/
theorem Table.step_refines (hwf : t.WF) (op : Op α) :
    (∃ r t', t.step op = some (r, t') ∧ t'.WF ∧ Spec t.entries op r t'.entries) ∨
      ∃ item, op = .insert item ∧ ∀ k < 2 ^ 31, t.entries k ≠ none := by
  cases op with
  | insert item =>
    rcases insert_spec hwf item with ⟨k, hk, hfree, hlow, t', heq, hwf', hent⟩ | ⟨hfull, -⟩
    · refine Or.inl ⟨.inserted (Int32.ofNat k) true, t', by rw [step, heq]; rfl, hwf', k, hk,
        (entries_eq_none_iff hwf).mpr hfree, fun j hj => ?_, rfl, hent⟩
      exact (entries_eq_none_iff hwf).not.mpr (not_not_intro (hlow j hj))
    · exact Or.inr ⟨item, rfl, fun k hk =>
        (entries_eq_none_iff hwf).not.mpr (not_not_intro (hfull k hk))⟩
  | insertAt item key =>
    refine Or.inl ?_
    by_cases hneg : key < 0
    · exact ⟨.insertedAt false, t, by rw [step, insertAt, if_pos hneg]; rfl, hwf,
        by rw [Spec, if_pos hneg]; exact ⟨rfl, rfl⟩⟩
    · obtain ⟨t', heq, hwf', hent⟩ := insertAt_spec hwf item hneg
      exact ⟨.insertedAt true, t', by rw [step, heq]; rfl, hwf',
        by rw [Spec, if_neg hneg]; exact ⟨rfl, hent⟩⟩
  | delete key =>
    obtain ⟨t', heq, hwf', hent⟩ := delete_spec hwf key
    exact Or.inl ⟨.done, t', by rw [step, heq]; rfl, hwf', rfl, hent⟩
  | lookup key =>
    exact Or.inl ⟨_, t, by rw [step, lookup_spec hwf]; rfl, hwf, rfl, rfl⟩
  | len =>
    exact Or.inl ⟨_, t, rfl, hwf, ⟨t.listing, t.lists_listing, by rw [len_eq hwf]⟩, rfl⟩
  | range f =>
    exact Or.inl ⟨_, t, by rw [step, range_spec hwf]; rfl, hwf,
      ⟨t.listing, t.lists_listing, rfl⟩, rfl⟩
  | reset =>
    exact Or.inl ⟨.done, t.reset, rfl, (reset_spec hwf).1, rfl, (reset_spec hwf).2⟩

theorem Table.run_cons {op : Op α} {ops : List (Op α)} {r : Result α} {rs : List (Result α)}
    {t' t'' : Table α} (hstep : t.step op = some (r, t')) (hrun : t'.run ops = some (rs, t'')) :
    t.run (op :: ops) = some (r :: rs, t'') := by
  rw [run, hstep]
  simp only [Option.bind_eq_bind, Option.bind_some, Option.pure_def, hrun]

theorem Table.run_refines (hwf : t.WF) (ops : List (Op α)) :
    (∃ rs t', t.run ops = some (rs, t') ∧ t'.WF ∧ SpecRun t.entries ops rs t'.entries) ∨
      ∃ front item rest rs t', ops = front ++ .insert item :: rest ∧ t.run front = some (rs, t') ∧
        ∀ k < 2 ^ 31, t'.entries k ≠ none := by
  induction ops generalizing t with
  | nil => exact Or.inl ⟨[], t, rfl, hwf, .nil _⟩
  | cons op ops ih =>
    rcases step_refines hwf op with ⟨r, t', hstep, hwf', hspec⟩ | ⟨item, rfl, hfull⟩
    · rcases ih hwf' with ⟨rs, t'', hrun, hwf'', hspecs⟩ |
        ⟨front, item, rest, rs, t'', rfl, hrun, hfull⟩
      · exact Or.inl ⟨r :: rs, t'', run_cons hstep hrun, hwf'', .cons hspec hspecs⟩
      · exact Or.inr ⟨op :: front, item, rest, r :: rs, t'', rfl, run_cons hstep hrun, hfull⟩
    · exact Or.inr ⟨[], item, ops, [], t, rfl, rfl, hfull⟩

/-- Every run from the empty table is a run of the empty map, as long as no item is inserted when
every 32-bit key is taken. -/
theorem table_is_map (ops : List (Op α)) :
    (∃ rs t, Table.run {} ops = some (rs, t) ∧ t.items.length = 64 * t.masks.length ∧
        (∀ k, t.entries k ≠ none → k < 2 ^ 31) ∧ SpecRun (fun _ => none) ops rs t.entries) ∨
      ∃ front item rest rs t, ops = front ++ .insert item :: rest ∧
        Table.run {} front = some (rs, t) ∧ ∀ k < 2 ^ 31, t.entries k ≠ none := by
  have hempty : ({} : Table α).entries = fun _ => none := by
    funext k
    refine if_neg ?_
    rintro ⟨_, h, -⟩
    cases h
  refine (Table.run_refines Table.wf_empty ops).imp_left ?_
  rintro ⟨rs, t, hrun, hwf, hspec⟩
  refine ⟨rs, t, hrun, hwf.length_items, fun k hk => ?_, hempty ▸ hspec⟩
  have hholds := not_not.mp ((Table.entries_eq_none_iff hwf).not.mp hk)
  exact (hholds.lt hwf).2

end Runs

end Descriptor
