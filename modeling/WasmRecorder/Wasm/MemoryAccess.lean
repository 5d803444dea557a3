import WasmRecorder.Lib.Checked
import WasmRecorder.Wasm.Instance

/-!
# Memory accessors

The accessors that host functions read and write a memory with. Each looks at the size first, in 64
bits, and then takes a stretch of the buffer. The reads compute the end of the stretch in 32 bits: at
the very end of a memory of 4 GiB it is 0, and the access panics. The accessors of single bytes
index the buffer, and the writes take the stretch to the end of the buffer.

* `readLe`, `store` — the shape that the reads and the writes of words share.
* `Access.Exact` — what an accessor is to do: succeed if the range is in the memory, return or change
  exactly the bytes there.
* `Access.exact_iff` — all accessors do, except where the end of the range is `2 ^ 32`.
-/

namespace Wasm

open Checked LittleEndian Slice

namespace MemoryInstance

def hasSize (m : MemoryInstance) (offset : UInt32) (byteCount : Nat) : Bool :=
  offset.toNat + byteCount ≤ m.buffer.length

def readByte (m : MemoryInstance) (offset : UInt32) : Call (Option UInt8) :=
  if ¬ m.hasSize offset 1 then .ok none
  else match m.buffer[offset.toNat]? with
    | none => .error .panic
    | some b => .ok (some b)

/-- A read of `n` bytes; the end of their range is a sum of 32 bits. -/
def readLe {α : Type} (m : MemoryInstance) (n : UInt32) (value : Bytes → Call α) (offset : UInt32) :
    Call (Option α) :=
  if ¬ m.hasSize offset n.toNat then .ok none
  else
    match sub m.buffer offset.toNat (offset + n).toNat with
    | .error e => .error e
    | .ok bytes => (value bytes).map some

def readUint16Le (m : MemoryInstance) : UInt32 → Call (Option UInt16) := m.readLe 2 (uint16 · 0)

def readUint32Le (m : MemoryInstance) : UInt32 → Call (Option UInt32) := m.readLe 4 (uint32 · 0)

def readUint64Le (m : MemoryInstance) : UInt32 → Call (Option UInt64) := m.readLe 8 (uint64 · 0)

def read (m : MemoryInstance) (offset byteCount : UInt32) : Call (Option Bytes) :=
  m.readLe byteCount .ok offset

/-- A write of some bytes, from the offset on. -/
def store (m : MemoryInstance) (offset : UInt32) (bytes : Bytes) : Call (Option MemoryInstance) :=
  if ¬ m.hasSize offset bytes.length then .ok none
  else (put m.buffer offset.toNat bytes).map fun buffer => some { m with buffer }

def writeByte (m : MemoryInstance) (offset : UInt32) (v : UInt8) := m.store offset [v]

def writeUint16Le (m : MemoryInstance) (offset : UInt32) (v : UInt16) := m.store offset (le16 v)

def writeUint32Le (m : MemoryInstance) (offset : UInt32) (v : UInt32) := m.store offset (le32 v)

def writeUint64Le (m : MemoryInstance) (offset : UInt32) (v : UInt64) := m.store offset (le64 v)

/-- The bytes are copied as far as the buffer goes. -/
def write (m : MemoryInstance) (offset : UInt32) (val : Bytes) : Call (Option MemoryInstance) :=
  if ¬ m.hasSize offset val.length then .ok none
  else if m.buffer.length < offset.toNat then .error .panic
  else .ok (some { m with
    buffer := overwrite m.buffer offset.toNat (val.take (m.buffer.length - offset.toNat)) })

/-! ### What an accessor is to do -/

/-- Return the value of the range's bytes, if they are in the memory. -/
def ReadsExactly {α : Type} (m : MemoryInstance) (offset : UInt32) (n : Nat) (bytes : α → Bytes)
    (r : Call (Option α)) : Prop :=
  if offset.toNat + n ≤ m.buffer.length then
    ∃ v, r = .ok (some v) ∧ bytes v = slice m.buffer offset.toNat (offset.toNat + n)
  else r = .ok none

/-- Change the bytes of the range to those given and no others, if they are in the memory; `again`
is about a read of the same range after that. -/
def WritesExactly (m : MemoryInstance) (offset : UInt32) (bytes : Bytes)
    (again : MemoryInstance → Prop) (r : Call (Option MemoryInstance)) : Prop :=
  if offset.toNat + bytes.length ≤ m.buffer.length then
    ∃ m', r = .ok (some m') ∧ m'.max = m.max ∧ m'.buffer.length = m.buffer.length ∧
      slice m'.buffer offset.toNat (offset.toNat + bytes.length) = bytes ∧ again m' ∧
      ∀ i, ¬ (offset.toNat ≤ i ∧ i < offset.toNat + bytes.length) → m'.buffer[i]? = m.buffer[i]?
  else r = .ok none

end MemoryInstance

inductive Access where
  | readByte
  | readUint16Le
  | readUint32Le
  | readUint64Le
  | read (byteCount : UInt32)
  | writeByte (v : UInt8)
  | writeUint16Le (v : UInt16)
  | writeUint32Le (v : UInt32)
  | writeUint64Le (v : UInt64)
  | write (val : Bytes)

namespace Access

def size : Access → Nat
  | readByte | writeByte _ => 1
  | readUint16Le | writeUint16Le _ => 2
  | readUint32Le | writeUint32Le _ => 4
  | readUint64Le | writeUint64Le _ => 8
  | read byteCount => byteCount.toNat
  | write val => val.length

def Exact (m : MemoryInstance) (offset : UInt32) : Access → Prop
  | readByte => m.ReadsExactly offset 1 ([·]) (m.readByte offset)
  | readUint16Le => m.ReadsExactly offset 2 le16 (m.readUint16Le offset)
  | readUint32Le => m.ReadsExactly offset 4 le32 (m.readUint32Le offset)
  | readUint64Le => m.ReadsExactly offset 8 le64 (m.readUint64Le offset)
  | read byteCount => m.ReadsExactly offset byteCount.toNat id (m.read offset byteCount)
  | writeByte v => m.WritesExactly offset [v] (·.readByte offset = .ok (some v))
      (m.writeByte offset v)
  | writeUint16Le v => m.WritesExactly offset (le16 v) (·.readUint16Le offset = .ok (some v))
      (m.writeUint16Le offset v)
  | writeUint32Le v => m.WritesExactly offset (le32 v) (·.readUint32Le offset = .ok (some v))
      (m.writeUint32Le offset v)
  | writeUint64Le v => m.WritesExactly offset (le64 v) (·.readUint64Le offset = .ok (some v))
      (m.writeUint64Le offset v)
  | write val => m.WritesExactly offset val
      (fun m' => ∀ n : UInt32, n.toNat = val.length → m'.read offset n = .ok (some val))
      (m.write offset val)

/-- The accessors that index the buffer by a single byte. -/
def OneByte : Access → Prop
  | readByte | writeByte _ => True
  | _ => False

/-- The end of the range, or of the range read again after a write, is 0 in 32 bits. -/
def Wraps (m : MemoryInstance) (offset : UInt32) (a : Access) : Prop :=
  ¬ a.OneByte ∧ offset ≠ 0 ∧ offset.toNat + a.size = 2 ^ 32 ∧ m.buffer.length = 2 ^ 32

end Access

/-! ### Reads -/

namespace MemoryInstance

variable {m : MemoryInstance} {offset : UInt32}

theorem readLe_eq {α : Type} (hsize : m.buffer.length ≤ 2 ^ 32) (n : UInt32)
    (value : Bytes → Call α) : m.readLe n value offset =
      if offset.toNat + n.toNat ≤ m.buffer.length then
        if offset.toNat + n.toNat = 2 ^ 32 then .error .panic
        else (value (slice m.buffer offset.toNat (offset.toNat + n.toNat))).map some
      else .ok none := by
  have hn := n.toNat_lt
  have hend := UInt32.toNat_add offset n
  rw [readLe, hasSize]
  by_cases hfit : offset.toNat + n.toNat ≤ m.buffer.length
  · rw [if_neg (by simpa using hfit), if_pos hfit]
    by_cases hwrap : offset.toNat + n.toNat = 2 ^ 32
    · have hzero : (offset + n).toNat = 0 := by rw [hend, hwrap, Nat.mod_self]
      rw [if_pos hwrap, sub, hzero, if_neg (by omega)]
    · have hexact : (offset + n).toNat = offset.toNat + n.toNat := by
        rw [hend]
        exact Nat.mod_eq_of_lt (by omega)
      rw [if_neg hwrap, hexact, sub_eq (Nat.le_add_right _ _) hfit]
  · rw [if_pos (by simpa using hfit), if_neg hfit]

section Word

variable {α : Type} {n : UInt32} {value : Bytes → Call α} {bytes : α → Bytes}
  (hvalue : ∀ v, value (bytes v) = .ok v)

include hvalue

theorem readsExactly_iff (hbytes : ∀ bs : Bytes, bs.length = n.toNat → ∃ v, bytes v = bs)
    (hsize : m.buffer.length ≤ 2 ^ 32) :
    m.ReadsExactly offset n.toNat bytes (m.readLe n value offset) ↔
      ¬ (offset.toNat + n.toNat = 2 ^ 32 ∧ m.buffer.length = 2 ^ 32) := by
  rw [ReadsExactly, readLe_eq hsize]
  by_cases hfit : offset.toNat + n.toNat ≤ m.buffer.length
  · rw [if_pos hfit, if_pos hfit]
    by_cases hwrap : offset.toNat + n.toNat = 2 ^ 32
    · rw [if_pos hwrap]
      exact iff_of_false (by simp) (not_not.mpr ⟨hwrap, by omega⟩)
    · obtain ⟨v, hv⟩ := hbytes (slice m.buffer offset.toNat (offset.toNat + n.toNat))
        (by rw [length_slice hfit, Nat.add_sub_cancel_left])
      rw [if_neg hwrap, ← hv, hvalue]
      exact iff_of_true ⟨v, rfl, rfl⟩ fun h => hwrap h.1
  · rw [if_neg hfit, if_neg hfit]
    exact iff_of_true rfl (by omega)

/-- A read of the bytes that were written. -/
theorem readLe_again_iff {v : α} (hsize : m.buffer.length ≤ 2 ^ 32)
    (hfit : offset.toNat + n.toNat ≤ m.buffer.length)
    (hslice : slice m.buffer offset.toNat (offset.toNat + n.toNat) = bytes v) :
    m.readLe n value offset = .ok (some v) ↔ offset.toNat + n.toNat ≠ 2 ^ 32 := by
  rw [readLe_eq hsize, if_pos hfit, hslice, hvalue]
  by_cases hwrap : offset.toNat + n.toNat = 2 ^ 32
  · rw [if_pos hwrap]
    exact iff_of_false (by simp) (not_not.mpr hwrap)
  · rw [if_neg hwrap]
    exact iff_of_true rfl hwrap

end Word

theorem readByte_eq : m.readByte offset =
    if offset.toNat + 1 ≤ m.buffer.length then .ok m.buffer[offset.toNat]? else .ok none := by
  rw [readByte, hasSize]
  by_cases hfit : offset.toNat + 1 ≤ m.buffer.length
  · rw [if_neg (by simpa using hfit), if_pos hfit, List.getElem?_eq_getElem hfit]
  · rw [if_pos (by simpa using hfit), if_neg hfit]

/-! ### Writes -/

theorem writesExactly_iff {bytes : Bytes} {again : MemoryInstance → Prop}
    {r : Call (Option MemoryInstance)}
    (hr : r = if offset.toNat + bytes.length ≤ m.buffer.length then
      .ok (some { m with buffer := overwrite m.buffer offset.toNat bytes }) else .ok none) :
    m.WritesExactly offset bytes again r ↔
      (offset.toNat + bytes.length ≤ m.buffer.length →
        again { m with buffer := overwrite m.buffer offset.toNat bytes }) := by
  rw [WritesExactly, hr]
  by_cases hfit : offset.toNat + bytes.length ≤ m.buffer.length
  · rw [if_pos hfit, if_pos hfit]
    constructor
    · rintro ⟨m', hm', -, -, -, hagain, -⟩ -
      cases hm'
      exact hagain
    · intro hagain
      refine ⟨_, rfl, rfl, length_overwrite hfit, ?_, hagain hfit, fun i hi => ?_⟩
      · rw [slice_overwrite_self le_rfl hfit, slice_self, List.append_nil]
      · exact (getElem?_overwrite hfit i).trans (if_neg hi)
  · rw [if_neg hfit, if_neg hfit]
    exact iff_of_true rfl fun h => absurd h hfit

theorem store_eq (bytes : Bytes) : m.store offset bytes =
    if offset.toNat + bytes.length ≤ m.buffer.length then
      .ok (some { m with buffer := overwrite m.buffer offset.toNat bytes }) else .ok none := by
  rw [store, hasSize]
  by_cases hfit : offset.toNat + bytes.length ≤ m.buffer.length
  · rw [if_neg (by simpa using hfit), if_pos hfit, put_eq hfit]
    rfl
  · rw [if_pos (by simpa using hfit), if_neg hfit]

theorem write_eq (val : Bytes) : m.write offset val =
    if offset.toNat + val.length ≤ m.buffer.length then
      .ok (some { m with buffer := overwrite m.buffer offset.toNat val }) else .ok none := by
  rw [write, hasSize]
  by_cases hfit : offset.toNat + val.length ≤ m.buffer.length
  · rw [if_neg (by simpa using hfit), if_pos hfit, if_neg (by omega),
      List.take_of_length_le (by omega)]
  · rw [if_pos (by simpa using hfit), if_neg hfit]

theorem writesExactly_word_iff {α : Type} {n : UInt32} {value : Bytes → Call α} {bytes : α → Bytes}
    (hvalue : ∀ v, value (bytes v) = .ok v) (hsize : m.buffer.length ≤ 2 ^ 32) (v : α)
    (hlen : (bytes v).length = n.toNat) :
    m.WritesExactly offset (bytes v) (·.readLe n value offset = .ok (some v))
        (m.store offset (bytes v)) ↔
      ¬ (offset.toNat + n.toNat = 2 ^ 32 ∧ m.buffer.length = 2 ^ 32) := by
  rw [writesExactly_iff (store_eq _), hlen]
  by_cases hfit : offset.toNat + n.toNat ≤ m.buffer.length
  · have hfit' : offset.toNat + (bytes v).length ≤ m.buffer.length := by omega
    have hlength := length_overwrite hfit'
    have hslice := slice_overwrite_self le_rfl hfit'
    rw [slice_self, List.append_nil, hlen] at hslice
    rw [forall_prop_of_true hfit, readLe_again_iff hvalue (by rw [hlength]; exact hsize)
      (by rw [hlength]; exact hfit) hslice]
    omega
  · exact iff_of_true (fun h => absurd h hfit) (by omega)

end MemoryInstance

/-! ### All accessors -/

namespace Access

open MemoryInstance

theorem exists_le16 {bs : Bytes} (h : bs.length = 2) : ∃ v, le16 v = bs := by
  have hlt := decode_lt bs
  rw [h] at hlt
  refine ⟨UInt16.ofNat (decode bs), ?_⟩
  rw [le16, UInt16.toNat_ofNat_of_lt' hlt, ← h, encode_decode]

theorem exists_le32 {bs : Bytes} (h : bs.length = 4) : ∃ v, le32 v = bs := by
  have hlt := decode_lt bs
  rw [h] at hlt
  refine ⟨UInt32.ofNat (decode bs), ?_⟩
  rw [le32, UInt32.toNat_ofNat_of_lt' hlt, ← h, encode_decode]

theorem exists_le64 {bs : Bytes} (h : bs.length = 8) : ∃ v, le64 v = bs := by
  have hlt := decode_lt bs
  rw [h] at hlt
  refine ⟨UInt64.ofNat (decode bs), ?_⟩
  rw [le64, UInt64.toNat_ofNat_of_lt' hlt, ← h, encode_decode]

theorem wraps_iff {m : MemoryInstance} {offset : UInt32} {a : Access} {n : UInt32}
    (ha : ¬ a.OneByte) (hn : a.size = n.toNat) :
    a.Wraps m offset ↔ offset.toNat + n.toNat = 2 ^ 32 ∧ m.buffer.length = 2 ^ 32 := by
  have hlt := n.toNat_lt
  rw [Wraps, hn, and_iff_right ha]
  constructor
  · exact fun h => h.2
  · rintro ⟨hend, hlen⟩
    refine ⟨?_, hend, hlen⟩
    rintro rfl
    rw [UInt32.toNat_zero] at hend
    omega

theorem exact_iff (m : MemoryInstance) (hsize : m.buffer.length ≤ 2 ^ 32) (offset : UInt32)
    (a : Access) : a.Exact m offset ↔ ¬ a.Wraps m offset := by
  cases a with
  | readByte =>
    refine iff_of_true ?_ fun h => h.1 trivial
    rw [Exact, ReadsExactly, readByte_eq]
    split_ifs with hfit
    · refine ⟨m.buffer[offset.toNat], congrArg _ (List.getElem?_eq_getElem hfit), ?_⟩
      exact (slice_singleton (List.getElem?_eq_getElem hfit)).symm
    · rfl
  | writeByte v =>
    refine iff_of_true ?_ fun h => h.1 trivial
    rw [Exact, MemoryInstance.writeByte, writesExactly_iff (store_eq _)]
    intro hfit
    rw [readByte_eq, length_overwrite hfit]
    refine (if_pos hfit).trans (congrArg _ ?_)
    rw [getElem?_overwrite hfit, if_pos ⟨le_rfl, Nat.lt_add_one _⟩, Nat.sub_self]
    rfl
  | readUint16Le =>
    rw [wraps_iff (n := 2) id rfl]
    change m.ReadsExactly offset (2 : UInt32).toNat le16 (m.readLe 2 (uint16 · 0) offset) ↔ _
    exact readsExactly_iff (fun v => uint16_of_drop (List.append_nil _).symm)
      (fun _ => exists_le16) hsize
  | readUint32Le =>
    rw [wraps_iff (n := 4) id rfl]
    change m.ReadsExactly offset (4 : UInt32).toNat le32 (m.readLe 4 (uint32 · 0) offset) ↔ _
    exact readsExactly_iff (fun v => uint32_of_drop (List.append_nil _).symm)
      (fun _ => exists_le32) hsize
  | readUint64Le =>
    rw [wraps_iff (n := 8) id rfl]
    change m.ReadsExactly offset (8 : UInt32).toNat le64 (m.readLe 8 (uint64 · 0) offset) ↔ _
    exact readsExactly_iff (fun v => uint64_of_drop (List.append_nil _).symm)
      (fun _ => exists_le64) hsize
  | read byteCount =>
    rw [wraps_iff (n := byteCount) id rfl]
    exact readsExactly_iff (fun _ => rfl) (fun bs _ => ⟨bs, rfl⟩) hsize
  | writeUint16Le v =>
    rw [wraps_iff (n := 2) id rfl]
    change m.WritesExactly offset (le16 v) (·.readLe 2 (uint16 · 0) offset = .ok (some v))
      (m.store offset (le16 v)) ↔ _
    exact writesExactly_word_iff (fun v => uint16_of_drop (List.append_nil _).symm) hsize v
      (length_le16 v)
  | writeUint32Le v =>
    rw [wraps_iff (n := 4) id rfl]
    change m.WritesExactly offset (le32 v) (·.readLe 4 (uint32 · 0) offset = .ok (some v))
      (m.store offset (le32 v)) ↔ _
    exact writesExactly_word_iff (fun v => uint32_of_drop (List.append_nil _).symm) hsize v
      (length_le32 v)
  | writeUint64Le v =>
    rw [wraps_iff (n := 8) id rfl]
    change m.WritesExactly offset (le64 v) (·.readLe 8 (uint64 · 0) offset = .ok (some v))
      (m.store offset (le64 v)) ↔ _
    exact writesExactly_word_iff (fun v => uint64_of_drop (List.append_nil _).symm) hsize v
      (length_le64 v)
  | write val =>
    rw [Exact, writesExactly_iff (write_eq _)]
    by_cases hlt : val.length < 2 ^ 32
    · have hn : (UInt32.ofNat val.length).toNat = val.length := UInt32.toNat_ofNat_of_lt' hlt
      have hword : m.WritesExactly offset val _ (m.store offset val) ↔ _ :=
        writesExactly_word_iff (fun v => (rfl : (.ok v : Call Bytes) = .ok v)) hsize val hn.symm
      rw [writesExactly_iff (store_eq _)] at hword
      rw [wraps_iff (a := write val) (n := UInt32.ofNat val.length) id hn.symm, ← hword]
      refine imp_congr_right fun hfit => ⟨fun h => h _ hn, fun h n hn' => ?_⟩
      rwa [UInt32.toNat_inj.mp (hn'.trans hn.symm)]
    · refine iff_of_true (fun _ n hn => absurd n.toNat_lt (by omega)) ?_
      rintro ⟨-, hne, hend, -⟩
      have hzero : offset.toNat = 0 := by
        change offset.toNat + val.length = _ at hend
        omega
      exact hne (UInt32.toNat_inj.mp hzero)

/-- The last word of a page. -/
theorem exact_iff_lastWord : readUint32Le.Exact ⟨List.replicate 65536 0, 1⟩ 65532 := by
  have hlen : (List.replicate 65536 (0 : UInt8)).length = 65536 := List.length_replicate
  rw [exact_iff _ (by rw [hlen]; omega)]
  intro h
  have hfull := h.2.2.2
  rw [hlen] at hfull
  omega

/-- The last word of the largest memory. -/
theorem lastWord_panics :
    (⟨List.replicate (2 ^ 32) 0, 65536⟩ : MemoryInstance).readUint32Le 0xfffffffc =
        .error .panic ∧
      ¬ readUint32Le.Exact ⟨List.replicate (2 ^ 32) 0, 65536⟩ 0xfffffffc := by
  have hlen : (List.replicate (2 ^ 32) (0 : UInt8)).length = 2 ^ 32 := List.length_replicate
  have hpanic : (⟨List.replicate (2 ^ 32) 0, 65536⟩ : MemoryInstance).readUint32Le 0xfffffffc =
      .error .panic := by
    rw [MemoryInstance.readUint32Le, readLe_eq hlen.le]
    exact (if_pos hlen.ge).trans (if_pos rfl)
  refine ⟨hpanic, ?_⟩
  rw [Exact, ReadsExactly, hpanic]
  split_ifs
  · rintro ⟨v, hv, -⟩
    cases hv
  · intro h
    cases h

end Access

end Wasm
