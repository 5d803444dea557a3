import WasmRecorder.Wasm.MemoryAccess

/-!
# Growing a memory

A memory's buffer is the front of an array that may be longer. Growing it uses what the array has
reserved, or appends pages of zeros, which moves the buffer to a new array if the old one is too
short; the runtime may make that one longer than it was asked for.

* `GrowableMemory.grow` — all branches; `spare` is what a new array has beyond its pages.
* `GrowableMemory.Reserved` — the invariant: the buffer is whole pages, and the pages reserved after
  it are zeros.
* `grow_spec` — growing adds pages of zeros, if the largest size allows it, and keeps the invariant.
* `toInstance_grow` — the growth of `Wasm/Instance`, seen from the outside.
* `grow_follows_spec` — so it does at the end of every run of growth and writes.
-/

namespace Wasm

open Checked Slice

/-- A memory declaration that passed validation. -/
structure MemoryDecl where
  min : UInt32
  cap : UInt32
  max : UInt32
  isShared : Bool
  min_le_cap : min.toNat ≤ cap.toNat
  cap_le_max : cap.toNat ≤ max.toNat
  max_le : max.toNat ≤ 65536

structure GrowableMemory where
  /-- The array behind the buffer. -/
  array : Bytes
  len : Nat
  cap : UInt32
  max : UInt32
  shared : Bool

namespace GrowableMemory

def buffer (m : GrowableMemory) : Bytes := m.array.take m.len

def memoryPagesToBytesNum (pages : UInt32) : Nat := pages.toNat * memoryPageSize

def memoryBytesNumToPages (bytesNum : Nat) : UInt32 := UInt32.ofNat (bytesNum / memoryPageSize)

def newMemoryInstance (memSec : MemoryDecl) : GrowableMemory :=
  -- a shared memory cannot move, so all of it is reserved
  let capBytes := memoryPagesToBytesNum (if memSec.isShared then memSec.max else memSec.cap)
  { array := List.replicate capBytes 0
    len := memoryPagesToBytesNum memSec.min
    cap := memoryBytesNumToPages capBytes
    max := memSec.max
    shared := memSec.isShared }

def pages (m : GrowableMemory) : UInt32 := memoryBytesNumToPages m.len

/-- Go's `append`: in place if the array is long enough. -/
def append (m : GrowableMemory) (bytes spare : Bytes) : GrowableMemory :=
  { m with
    array := if m.len + bytes.length ≤ m.array.length then overwrite m.array m.len bytes
      else m.buffer ++ bytes ++ spare
    len := m.len + bytes.length }

def grow (m : GrowableMemory) (spare : Bytes) (delta : UInt32) :
    Call ((UInt32 × Bool) × GrowableMemory) :=
  let currentPages := m.pages
  if delta = 0 then .ok ((currentPages, true), m)
  else
    let newPages := currentPages + delta
    if m.max < newPages ∨ delta.toInt32 < 0 then .ok ((0, false), m)
    else if m.cap < newPages then
      if m.shared then .error .panic
      else .ok ((currentPages, true),
        { m.append (List.replicate (memoryPagesToBytesNum delta) 0) spare with cap := newPages })
    else if m.array.length < memoryPagesToBytesNum newPages then .error .panic
    else .ok ((currentPages, true), { m with len := memoryPagesToBytesNum newPages })

/-- Any store into the buffer. -/
def write (m : GrowableMemory) (offset : Nat) (val : Bytes) : GrowableMemory :=
  if offset + val.length ≤ m.len then { m with array := overwrite m.array offset val } else m

inductive Op where
  | grow (delta : UInt32) (spare : Bytes)
  | write (offset : Nat) (val : Bytes)

def step (m : GrowableMemory) : Op → Call GrowableMemory
  | .grow delta spare => (m.grow spare delta).map Prod.snd
  | .write offset val => .ok (m.write offset val)

/-! ### The pages in reserve -/

/-- The buffer is whole pages, and zeros follow up to the capacity that is on record. -/
structure Reserved (m : GrowableMemory) : Prop where
  len_le : m.len ≤ m.array.length
  whole : m.len = m.pages.toNat * memoryPageSize
  pages_le_cap : m.pages.toNat ≤ m.cap.toNat
  cap_le_max : m.cap.toNat ≤ m.max.toNat
  max_le : m.max.toNat ≤ 65536
  shared_cap : m.shared → m.cap = m.max
  zeros : ∃ rest, m.array.drop m.len =
    List.replicate (m.cap.toNat * memoryPageSize - m.len) 0 ++ rest

theorem toNat_pages {k : Nat} (hk : k ≤ 65536) :
    (memoryBytesNumToPages (k * memoryPageSize)).toNat = k := by
  rw [memoryBytesNumToPages, Nat.mul_div_cancel _ (by decide)]
  exact UInt32.toNat_ofNat_of_lt' (by change k < 2 ^ 32; omega)

theorem reserved_new (d : MemoryDecl) : (newMemoryInstance d).Reserved := by
  have hmin := d.min_le_cap
  have hcap := d.cap_le_max
  have hmax := d.max_le
  have hpages : (newMemoryInstance d).pages.toNat = d.min.toNat := toNat_pages (by omega)
  obtain ⟨c, hc, hle, hle', hshared⟩ : ∃ c : UInt32, (if d.isShared then d.max else d.cap) = c ∧
      d.cap.toNat ≤ c.toNat ∧ c.toNat ≤ d.max.toNat ∧ (d.isShared → c = d.max) := by
    refine ⟨_, rfl, ?_⟩
    split_ifs with hs
    · exact ⟨hcap, le_rfl, fun _ => rfl⟩
    · exact ⟨le_rfl, hcap, fun h => absurd h hs⟩
  have hmul : d.min.toNat * memoryPageSize ≤ c.toNat * memoryPageSize :=
    Nat.mul_le_mul_right _ (by omega)
  have hcapNat : (memoryBytesNumToPages (c.toNat * memoryPageSize)).toNat = c.toNat :=
    toNat_pages (by omega)
  simp only [newMemoryInstance, hc, memoryPagesToBytesNum] at hpages ⊢
  refine ⟨?_, ?_, ?_, ?_, hmax, fun hs => ?_, [], ?_⟩
  · rw [List.length_replicate]
    exact hmul
  · rw [hpages]
  · rw [hpages, hcapNat]
    omega
  · rw [hcapNat]
    exact hle'
  · rw [← UInt32.toNat_inj, hcapNat, hshared hs]
  · rw [List.drop_replicate, hcapNat, List.append_nil]

variable {m : GrowableMemory}

theorem reserved_write (h : m.Reserved) (offset : Nat) (val : Bytes) :
    (m.write offset val).Reserved := by
  rw [write]
  split_ifs with hfit
  · have hlen := h.len_le
    obtain ⟨rest, hrest⟩ := h.zeros
    refine ⟨?_, h.whole, h.pages_le_cap, h.cap_le_max, h.max_le, h.shared_cap, rest, ?_⟩
    · rw [length_overwrite (by omega)]
      exact hlen
    · rw [← hrest]
      change (overwrite m.array offset val).drop m.len = _
      refine List.ext_getElem? fun i => ?_
      rw [List.getElem?_drop, List.getElem?_drop, getElem?_overwrite (by omega), if_neg (by omega)]
  · exact h

theorem toInt32_neg_iff (x : UInt32) : x.toInt32 < 0 ↔ 2 ^ 31 ≤ x.toNat := by
  rw [Int32.lt_iff_toInt_lt]
  change x.toBitVec.toInt < 0 ↔ _
  rw [BitVec.toInt_neg_iff]
  change 2 ^ 32 ≤ 2 * x.toNat ↔ _
  omega

/-- The test for growth is the one over the integers. -/
theorem refused_iff (h : m.Reserved) (delta : UInt32) :
    (m.max < m.pages + delta ∨ delta.toInt32 < 0) ↔ m.max.toNat < m.pages.toNat + delta.toNat := by
  have hpages := h.pages_le_cap
  have hcap := h.cap_le_max
  have hmax := h.max_le
  have hsum := UInt32.toNat_add m.pages delta
  rw [UInt32.lt_iff_toNat_lt, toInt32_neg_iff]
  omega

@[simp] theorem append_max (m : GrowableMemory) (bytes spare : Bytes) :
    (m.append bytes spare).max = m.max := rfl

@[simp] theorem append_shared (m : GrowableMemory) (bytes spare : Bytes) :
    (m.append bytes spare).shared = m.shared := rfl

/-- In place or not, the array starts with the buffer and what was appended. -/
theorem append_array (m : GrowableMemory) (bytes spare : Bytes) :
    ∃ rest, (m.append bytes spare).array = m.buffer ++ bytes ++ rest := by
  rw [append]
  split_ifs
  · exact ⟨_, rfl⟩
  · exact ⟨spare, rfl⟩

theorem buffer_append (hlen : m.len ≤ m.array.length) (bytes spare : Bytes) :
    (m.append bytes spare).buffer = m.buffer ++ bytes := by
  obtain ⟨rest, hrest⟩ := m.append_array bytes spare
  have hbuffer : m.buffer.length = m.len := List.length_take_of_le hlen
  rw [buffer, hrest]
  exact List.take_left' (by rw [List.length_append, hbuffer]; rfl)

/-- After an append, the capacity on record is what the buffer has. -/
theorem reserved_append (h : m.Reserved) (spare : Bytes) {delta : UInt32}
    (hnew : (m.pages + delta).toNat = m.pages.toNat + delta.toNat)
    (hin : m.pages.toNat + delta.toNat ≤ m.max.toNat) (hshared : ¬ m.shared) :
    ({ m.append (List.replicate (memoryPagesToBytesNum delta) 0) spare with
      cap := m.pages + delta } : GrowableMemory).Reserved := by
  have hmax := h.max_le
  have hlen : m.len + delta.toNat * memoryPageSize =
      (m.pages.toNat + delta.toNat) * memoryPageSize := by rw [Nat.add_mul, ← h.whole]
  have hpages : (memoryBytesNumToPages (m.len + delta.toNat * memoryPageSize)).toNat =
      m.pages.toNat + delta.toNat := by
    rw [hlen]
    exact toNat_pages (by omega)
  obtain ⟨rest, hrest⟩ := m.append_array (List.replicate (memoryPagesToBytesNum delta) 0) spare
  have hbuffer : m.buffer.length = m.len := List.length_take_of_le h.len_le
  have hfront : (m.buffer ++ List.replicate (memoryPagesToBytesNum delta) (0 : UInt8)).length =
      m.len + delta.toNat * memoryPageSize := by
    rw [List.length_append, hbuffer, List.length_replicate, memoryPagesToBytesNum]
  have hlen' : (m.append (List.replicate (memoryPagesToBytesNum delta) 0) spare).len =
      m.len + delta.toNat * memoryPageSize := by
    rw [append, List.length_replicate, memoryPagesToBytesNum]
  refine ⟨?_, ?_, ?_, ?_, ?_, ?_, rest, ?_⟩
  · change (m.append _ spare).len ≤ (m.append _ spare).array.length
    rw [hlen', hrest, List.length_append, hfront]
    exact Nat.le_add_right _ _
  · change (m.append _ spare).len = (memoryBytesNumToPages (m.append _ spare).len).toNat * _
    rw [hlen', hpages, hlen]
  · change (memoryBytesNumToPages (m.append _ spare).len).toNat ≤ _
    rw [hlen', hpages, hnew]
  · rw [append_max]
    exact hnew.trans_le hin
  · rw [append_max]
    exact hmax
  · rw [append_shared]
    exact fun hs => absurd hs hshared
  · change (m.append _ spare).array.drop (m.append _ spare).len =
      List.replicate ((m.pages + delta).toNat * memoryPageSize - (m.append _ spare).len) 0 ++ rest
    rw [hlen', hrest, List.drop_left' hfront, hnew, hlen, Nat.sub_self]
    rfl

/-- Pages in reserve become visible as they are. -/
theorem reslice_spec (h : m.Reserved) {delta : Nat} (hcap : m.pages.toNat + delta ≤ m.cap.toNat) :
    m.len + delta * memoryPageSize ≤ m.array.length ∧
    ({ m with len := m.len + delta * memoryPageSize } : GrowableMemory).Reserved ∧
    ({ m with len := m.len + delta * memoryPageSize } : GrowableMemory).buffer =
      m.buffer ++ List.replicate (delta * memoryPageSize) 0 := by
  obtain ⟨rest, hrest⟩ := h.zeros
  have hmax := h.max_le
  have hcapMax := h.cap_le_max
  have hlenLe := h.len_le
  have hlen : m.len + delta * memoryPageSize = (m.pages.toNat + delta) * memoryPageSize := by
    rw [Nat.add_mul, ← h.whole]
  have hpages : (memoryBytesNumToPages (m.len + delta * memoryPageSize)).toNat =
      m.pages.toNat + delta := by
    rw [hlen]
    exact toNat_pages (by omega)
  have hle : m.len + delta * memoryPageSize ≤ m.cap.toNat * memoryPageSize := by
    rw [hlen]
    exact Nat.mul_le_mul_right _ hcap
  have htotal := congrArg List.length hrest
  rw [List.length_drop, List.length_append, List.length_replicate] at htotal
  have hfit : m.len + delta * memoryPageSize ≤ m.array.length := by omega
  refine ⟨hfit, ⟨hfit, ?_, ?_, hcapMax, hmax, h.shared_cap, rest, ?_⟩, ?_⟩
  · change _ = (memoryBytesNumToPages _).toNat * _
    rw [hpages, hlen]
  · change (memoryBytesNumToPages _).toNat ≤ _
    rw [hpages]
    exact hcap
  · change m.array.drop (m.len + delta * memoryPageSize) = _
    rw [← List.drop_drop, hrest, List.drop_append_of_le_length (by rw [List.length_replicate]; omega),
      List.drop_replicate, Nat.sub_sub]
  · change m.array.take (m.len + delta * memoryPageSize) = _
    rw [List.take_add, hrest, List.take_append_of_le_length (by rw [List.length_replicate]; omega),
      List.take_replicate, Nat.min_eq_left (by omega)]
    rfl

theorem grow_spec (h : m.Reserved) (spare : Bytes) (delta : UInt32) :
    if m.pages.toNat + delta.toNat ≤ m.max.toNat then
      ∃ m', m.grow spare delta = .ok ((m.pages, true), m') ∧ m'.Reserved ∧ m'.max = m.max ∧
        m'.buffer = m.buffer ++ List.replicate (delta.toNat * memoryPageSize) 0
    else m.grow spare delta = .ok ((0, false), m) := by
  have hrefused := refused_iff h delta
  rw [grow]
  by_cases hzero : delta = 0
  · subst hzero
    have hin : m.pages.toNat + (0 : UInt32).toNat ≤ m.max.toNat :=
      h.pages_le_cap.trans h.cap_le_max
    rw [if_pos rfl, if_pos hin]
    exact ⟨m, rfl, h, rfl, by simp⟩
  · rw [if_neg hzero]
    by_cases hin : m.pages.toNat + delta.toNat ≤ m.max.toNat
    · rw [if_pos hin]
      have hnew : (m.pages + delta).toNat = m.pages.toNat + delta.toNat := by
        have := h.max_le
        rw [UInt32.toNat_add, Nat.mod_eq_of_lt (by omega)]
      have hbytes : memoryPagesToBytesNum (m.pages + delta) =
          m.len + delta.toNat * memoryPageSize := by
        rw [memoryPagesToBytesNum, hnew, Nat.add_mul, ← h.whole]
      simp only [if_neg (mt hrefused.mp (not_lt.mpr hin))]
      by_cases hcap : m.cap < m.pages + delta
      · have hshared : ¬ m.shared := by
          intro hs
          rw [h.shared_cap hs, UInt32.lt_iff_toNat_lt, hnew] at hcap
          omega
        rw [if_pos hcap, if_neg hshared]
        exact ⟨_, rfl, reserved_append h spare hnew hin hshared,
          m.append_max (List.replicate (memoryPagesToBytesNum delta) 0) spare,
          buffer_append h.len_le _ spare⟩
      · rw [UInt32.lt_iff_toNat_lt, hnew] at hcap
        obtain ⟨hfit, hreserved, hbuffer⟩ := reslice_spec h (not_lt.mp hcap)
        rw [if_neg (UInt32.lt_iff_toNat_lt.not.mpr (by rw [hnew]; exact hcap)), hbytes,
          if_neg (not_lt.mpr hfit)]
        exact ⟨_, rfl, hreserved, rfl, hbuffer⟩
    · rw [if_neg hin]
      exact if_pos (hrefused.mpr (not_le.mp hin))

/-- The memory without the array that it is the front of. -/
def toInstance (m : GrowableMemory) : MemoryInstance := ⟨m.buffer, m.max⟩

/-- Growth looks the same from the outside, whatever the array has in reserve. -/
theorem toInstance_grow (h : m.Reserved) (spare : Bytes) (delta : UInt32) :
    m.toInstance.grow delta = none ∧ m.grow spare delta = .ok ((0, false), m) ∨
      ∃ m', m.toInstance.grow delta = some (m.pages, m'.toInstance) ∧
        m.grow spare delta = .ok ((m.pages, true), m') := by
  have hpages : m.toInstance.pages = m.pages := by
    rw [MemoryInstance.pages, toInstance, buffer, List.length_take_of_le h.len_le]
    rfl
  have hrefused := refused_iff h delta
  have hgrow := grow_spec h spare delta
  rw [MemoryInstance.grow, hpages]
  split_ifs at hgrow with hin
  · obtain ⟨m', hm', -, hmax, hbuffer⟩ := hgrow
    refine .inr ⟨m', ?_, hm'⟩
    by_cases hzero : delta = 0
    · -- nothing is appended
      subst hzero
      rw [if_pos rfl, toInstance, toInstance, hbuffer, hmax, UInt32.toNat_zero, Nat.zero_mul,
        List.replicate_zero, List.append_nil]
    · rw [if_neg hzero, toInstance, toInstance, hbuffer, hmax]
      exact if_neg (mt hrefused.mp (not_lt.mpr hin))
  · refine .inl ⟨?_, hgrow⟩
    have hzero : delta ≠ 0 := by
      rintro rfl
      exact hin (h.pages_le_cap.trans h.cap_le_max)
    rw [if_neg hzero]
    exact if_pos (hrefused.mpr (not_le.mp hin))

theorem step_spec (h : m.Reserved) (op : Op) :
    ∃ m', m.step op = .ok m' ∧ m'.Reserved ∧ m'.max = m.max := by
  cases op with
  | write offset val =>
    refine ⟨_, rfl, reserved_write h offset val, ?_⟩
    rw [write]
    split_ifs <;> rfl
  | grow delta spare =>
    have hgrow := grow_spec h spare delta
    split_ifs at hgrow with hin
    · obtain ⟨m', hm', hreserved, hmax, -⟩ := hgrow
      exact ⟨m', by rw [step, hm']; rfl, hreserved, hmax⟩
    · exact ⟨m, by rw [step, hgrow]; rfl, h, rfl⟩

theorem run_spec (h : m.Reserved) (ops : List Op) :
    ∃ m', ops.foldlM step m = .ok m' ∧ m'.Reserved ∧ m'.max = m.max := by
  induction ops generalizing m with
  | nil => exact ⟨m, rfl, h, rfl⟩
  | cons op ops ih =>
    obtain ⟨m₁, hstep, hreserved, hmax⟩ := step_spec h op
    obtain ⟨m', hrun, hreserved', hmax'⟩ := ih hreserved
    exact ⟨m', by rw [List.foldlM_cons, hstep]; exact hrun, hreserved', hmax'.trans hmax⟩

theorem grow_follows_spec (d : MemoryDecl) (ops : List Op) :
    ∃ m, ops.foldlM step (newMemoryInstance d) = .ok m ∧
      m.buffer.length = m.pages.toNat * memoryPageSize ∧ m.pages.toNat ≤ m.cap.toNat ∧
      m.cap.toNat ≤ Nat.max (newMemoryInstance d).cap.toNat d.max.toNat ∧
      ∀ (delta : UInt32) (spare : Bytes),
        if m.pages.toNat + delta.toNat ≤ d.max.toNat then
          ∃ m', m.grow spare delta = .ok ((m.pages, true), m') ∧
            m'.buffer = m.buffer ++ List.replicate (delta.toNat * memoryPageSize) 0
        else m.grow spare delta = .ok ((0, false), m) := by
  obtain ⟨m, hrun, h, hmax⟩ := run_spec (reserved_new d) ops
  have hmax : m.max = d.max := hmax
  refine ⟨m, hrun, ?_, h.pages_le_cap, ?_, fun delta spare => ?_⟩
  · rw [← h.whole]
    exact List.length_take_of_le h.len_le
  · rw [← hmax]
    exact h.cap_le_max.trans (Nat.le_max_right _ _)
  · have hgrow := grow_spec h spare delta
    rw [hmax] at hgrow
    split_ifs at hgrow ⊢
    · obtain ⟨m', hm', -, -, hbuffer⟩ := hgrow
      exact ⟨m', hm', hbuffer⟩
    · exact hgrow

end GrowableMemory

end Wasm
