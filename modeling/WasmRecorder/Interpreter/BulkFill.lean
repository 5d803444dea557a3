import WasmRecorder.Lib.Filling
import WasmRecorder.Wasm.Instance

/-!
# Bulk fills

The interpreter fills a range of a memory or a table by setting its first element and copying the
part that is filled to the places after it: in chunks of at most 8192 bytes, or doubling. Growing a
table fills the new elements in the same way.

* `memoryFill`, `tableFill`, `TableInstance.growCopying` — the loops of the source.
* `bulk_fills_exact` — they come to a fill of exactly the range, and to as many copies of the
  reference at the end of the table as were asked for.
-/

open Slice Filling

namespace Wasm

/-- The growth of a table, with the loop that fills the new elements. -/
def TableInstance.growCopying (t : TableInstance) (delta : UInt32) (initialRef : Reference) :
    UInt32 × TableInstance :=
  let currentLen := UInt32.ofNat t.references.length
  if delta = 0 then (currentLen, t)
  else
    let newLen := currentLen.toNat + delta.toNat
    if 2 ^ 32 - 1 ≤ newLen ∨ ∃ max, t.max = some max ∧ max.toNat < newLen then (0xffffffff, t)
    else
      let references := t.references ++ List.replicate delta.toNat 0
      if initialRef = 0 then (currentLen, { t with references })
      else
        let newRegion := references.drop currentLen.toNat
        let filled := fillDoubling (newRegion.set 0 initialRef) 1 Nat.one_pos
        (currentLen, { t with references := references.take currentLen.toNat ++ filled })

/-- A table as it is made: no longer than its maximum, and its size fits in 32 bits. -/
structure TableInstance.Valid (t : TableInstance) : Prop where
  length_lt : t.references.length < 2 ^ 32
  length_le : ∀ max, t.max = some max → t.references.length ≤ max.toNat

theorem TableInstance.growCopying_eq {t : TableInstance} (ht : t.Valid) (delta : UInt32)
    (ref : Reference) : t.growCopying delta ref =
      if 2 ^ 32 - 1 ≤ t.references.length + delta.toNat ∨
        ∃ max, t.max = some max ∧ max.toNat < t.references.length + delta.toNat then
        (0xffffffff, t)
      else (UInt32.ofNat t.references.length,
        { t with references := t.references ++ List.replicate delta.toNat ref }) := by
  have hlen : (UInt32.ofNat t.references.length).toNat = t.references.length :=
    UInt32.toNat_ofNat_of_lt' ht.length_lt
  rw [growCopying]
  simp only [hlen]
  by_cases hzero : delta = 0
  · subst hzero
    rw [if_pos rfl]
    split_ifs with hfull
    · -- only a table of the largest length is full already, and its length is the error
      rcases hfull with hfull | ⟨max, hmax, hlt⟩
      · have : t.references.length = 2 ^ 32 - 1 := by
          have := ht.length_lt
          rw [UInt32.toNat_zero] at hfull
          omega
        rw [this]
        rfl
      · exact absurd (ht.length_le max hmax) (Nat.not_le.mpr hlt)
    · simp
  · rw [if_neg hzero]
    refine if_congr Iff.rfl rfl ?_
    split_ifs with href
    · rw [href]
    · have hnew : List.replicate delta.toNat (0 : Reference) ≠ [] := by
        rw [Ne, List.replicate_eq_nil_iff]
        exact fun h => hzero (UInt32.toNat_inj.mp h)
      rw [List.drop_left, List.take_left, fillDoubling_set hnew, List.length_replicate]

end Wasm

namespace Interpreter

open Wasm (Reference)

/-- The new contents, or nothing if the range is not in the memory. -/
def memoryFill (buffer : Wasm.Bytes) (offset value fillSize : UInt64) : Option Wasm.Bytes :=
  if buffer.length < (fillSize + offset).toNat then none
  else if fillSize ≠ 0 then
    let buf := slice buffer offset.toNat (offset + fillSize).toNat
    let value := value.toUInt8
    let filled :=
      if value = 0 then List.replicate buf.length 0
      else fillChunks 8192 (by omega) (buf.set 0 value) 1 Nat.one_pos
    some (overwrite buffer offset.toNat filled)
  else some buffer

def tableFill (references : List Reference) (offset ref num : UInt64) : Option (List Reference) :=
  if references.length < (num + offset).toNat then none
  else if 0 < num then
    let targetRegion := slice references offset.toNat (offset + num).toNat
    some (overwrite references offset.toNat
      (fillDoubling (targetRegion.set 0 ref) 1 Nat.one_pos))
  else some references

/-- Set exactly the elements of a range, if it is in the list. -/
def FillsRange {α : Type} (l : List α) (offset count : Nat) (v : α) (r : Option (List α)) : Prop :=
  if offset + count ≤ l.length then
    ∃ l', r = some l' ∧ l'.length = l.length ∧
      ∀ i, l'[i]? = if offset ≤ i ∧ i < offset + count then some v else l[i]?
  else r = none

theorem fillsRange_overwrite {α : Type} {l : List α} {offset count : Nat} (v : α)
    (hfit : offset + count ≤ l.length) :
    FillsRange l offset count v (some (overwrite l offset (List.replicate count v))) := by
  have hrange : offset + (List.replicate count v).length ≤ l.length := by
    rwa [List.length_replicate]
  rw [FillsRange, if_pos hfit]
  refine ⟨_, rfl, length_overwrite hrange, fun i => ?_⟩
  rw [getElem?_overwrite hrange, List.length_replicate]
  by_cases hi : offset ≤ i ∧ i < offset + count
  · rw [if_pos hi, if_pos hi, List.getElem?_replicate, if_pos (by omega)]
  · rw [if_neg hi, if_neg hi]

theorem overwrite_nil {α : Type} (l : List α) (i : Nat) : overwrite l i [] = l := by
  rw [overwrite, List.append_nil, List.length_nil, Nat.add_zero, List.take_append_drop]

/-- Operands of 32 bits add up in a slot of 64. -/
theorem toNat_add_slots (a b : UInt32) : (a.toUInt64 + b.toUInt64).toNat = a.toNat + b.toNat := by
  have ha := a.toNat_lt
  have hb := b.toNat_lt
  rw [UInt64.toNat_add, UInt32.toNat_toUInt64, UInt32.toNat_toUInt64]
  exact Nat.mod_eq_of_lt (by omega)

theorem slot_eq_zero_iff (a : UInt32) : a.toUInt64 = 0 ↔ a.toNat = 0 := by
  rw [← UInt64.toNat_inj, UInt32.toNat_toUInt64]
  rfl

section

variable {α : Type} {l : List α} {offset count : UInt32}

/-- The region of a range that is not empty. -/
theorem region_spec (hfit : offset.toNat + count.toNat ≤ l.length) (hcount : count.toNat ≠ 0) :
    (slice l offset.toNat (offset.toUInt64 + count.toUInt64).toNat).length =
      count.toNat ∧
    slice l offset.toNat (offset.toUInt64 + count.toUInt64).toNat ≠ [] := by
  have hlen : (slice l offset.toNat (offset.toUInt64 + count.toUInt64).toNat).length =
      count.toNat := by
    rw [toNat_add_slots, length_slice hfit, Nat.add_sub_cancel_left]
  exact ⟨hlen, fun h => hcount (by rw [← hlen, h, List.length_nil])⟩

end

theorem memoryFill_fills (buffer : Wasm.Bytes) (offset value count : UInt32) :
    FillsRange buffer offset.toNat count.toNat value.toUInt8
      (memoryFill buffer offset.toUInt64 value.toUInt64 count.toUInt64) := by
  have hvalue : value.toUInt64.toUInt8 = value.toUInt8 := UInt32.toUInt8_toUInt64 value
  rw [memoryFill, toNat_add_slots, Nat.add_comm]
  by_cases hfit : offset.toNat + count.toNat ≤ buffer.length
  · rw [if_neg (Nat.not_lt.mpr hfit)]
    have hfilled := fillsRange_overwrite value.toUInt8 hfit
    by_cases hcount : count.toNat = 0
    · rw [if_neg (not_not.mpr ((slot_eq_zero_iff count).mpr hcount))]
      rwa [hcount, List.replicate_zero, overwrite_nil, ← hcount] at hfilled
    · obtain ⟨hlen, hne⟩ := region_spec hfit hcount
      rw [if_pos (mt (slot_eq_zero_iff count).mp hcount)]
      simp only [UInt32.toNat_toUInt64, hvalue, hlen, fillChunks_set (by omega : 0 < 8192) hne]
      split_ifs with hzero
      · rwa [hzero] at hfilled ⊢
      · exact hfilled
  · rw [if_pos (Nat.not_le.mp hfit), FillsRange, if_neg hfit]

theorem tableFill_fills (references : List Reference) (offset count : UInt32) (ref : Reference) :
    FillsRange references offset.toNat count.toNat ref
      (tableFill references offset.toUInt64 ref count.toUInt64) := by
  rw [tableFill, toNat_add_slots, Nat.add_comm]
  by_cases hfit : offset.toNat + count.toNat ≤ references.length
  · rw [if_neg (Nat.not_lt.mpr hfit)]
    have hfilled := fillsRange_overwrite ref hfit
    have hpos : 0 < count.toUInt64 ↔ count.toNat ≠ 0 := by
      rw [UInt64.lt_iff_toNat_lt, UInt32.toNat_toUInt64]
      exact Nat.pos_iff_ne_zero
    by_cases hcount : count.toNat = 0
    · rw [if_neg (mt hpos.mp (not_not.mpr hcount))]
      rwa [hcount, List.replicate_zero, overwrite_nil, ← hcount] at hfilled
    · obtain ⟨hlen, hne⟩ := region_spec hfit hcount
      rw [if_pos (hpos.mpr hcount)]
      simp only [UInt32.toNat_toUInt64, fillDoubling_set hne, hlen]
      exact hfilled
  · rw [if_pos (Nat.not_le.mp hfit), FillsRange, if_neg hfit]

theorem bulk_fills_exact (t : Wasm.TableInstance) (ht : t.Valid) :
    (∀ (buffer : Wasm.Bytes) (offset value count : UInt32),
      FillsRange buffer offset.toNat count.toNat value.toUInt8
        (memoryFill buffer offset.toUInt64 value.toUInt64 count.toUInt64)) ∧
    (∀ (offset count : UInt32) (ref : Reference),
      FillsRange t.references offset.toNat count.toNat ref
        (tableFill t.references offset.toUInt64 ref count.toUInt64)) ∧
    ∀ (delta : UInt32) (ref : Reference), t.growCopying delta ref =
      if 2 ^ 32 - 1 ≤ t.references.length + delta.toNat ∨
        ∃ max, t.max = some max ∧ max.toNat < t.references.length + delta.toNat then
        (0xffffffff, t)
      else (UInt32.ofNat t.references.length,
        { t with references := t.references ++ List.replicate delta.toNat ref }) :=
  ⟨memoryFill_fills, tableFill_fills t.references, t.growCopying_eq ht⟩

/-- A table with room for two more. -/
theorem bulk_fills_exact_room :
    (⟨[5], some 3, .externref⟩ : Wasm.TableInstance).growCopying 2 7 =
        (1, ⟨[5, 7, 7], some 3, .externref⟩) ∧
      (⟨[5], some 3, .externref⟩ : Wasm.TableInstance).growCopying 3 7 =
        (0xffffffff, ⟨[5], some 3, .externref⟩) := by
  have ht : (⟨[5], some 3, .externref⟩ : Wasm.TableInstance).Valid :=
    ⟨by decide, fun max hmax => by cases hmax; decide⟩
  obtain ⟨-, -, hgrow⟩ := bulk_fills_exact ⟨[5], some 3, .externref⟩ ht
  refine ⟨(hgrow 2 7).trans (if_neg ?_), (hgrow 3 7).trans (if_pos (.inr ⟨3, rfl, by decide⟩))⟩
  rintro (hfull | ⟨max, hmax, hlt⟩)
  · exact absurd hfull (by decide)
  · cases hmax
    exact absurd hlt (by decide)

end Interpreter
