import WasmRecorder.Wasi.FileTable
import WasmRecorder.Wasm.MemoryAccess

/-!
# Vectored reads and writes

`fd_read`, `fd_write` and their positional forms take a list of buffers in guest memory, the iovecs,
and hand them to the file one after the other. The list is read from memory as the call goes on, so
what is read into a buffer may change the iovecs behind.

* `call` — the four calls, with a log of the iovecs that were taken up; `Moves` says what a loop can
  do.
* `Accounts` — the guest is told about every byte that was moved: the number is in its memory.
* `Told` — the condition for that, which follows the iovecs through memory and asks the file.
* `vectored_accounts_iff` — **the guest is told exactly under this condition**.
-/

namespace Wasi

namespace Vectored

open Wasm (MemoryInstance)
open LittleEndian (u32At le32 u32At_append)
open Slice (overwrite length_overwrite)

/-- What a file answers to its `i`-th call: it moves as many bytes as `(device i).1` has, at most
those of the buffer, and then reports success or an error. The bytes are those read; when the call
is a write, only their number matters. -/
abbrev Device := Nat → List UInt8 × Option Errno

inductive Direction where
  | read
  | write
  deriving DecidableEq, Repr

/-- An iovec that was taken up: where it stands, its buffer, how many bytes were moved, and the
error that ended the call there. -/
structure Transfer where
  address : Nat
  offset : UInt32
  len : UInt32
  moved : Nat := 0
  errno : Option Errno := none
  deriving DecidableEq, Repr

inductive Ending where
  | done
  | errno (e : Errno)
  | panic
  deriving DecidableEq, Repr

/-- Where a call has got to. `count` is the guest's result, in 32 bits. -/
structure Progress where
  mem : MemoryInstance
  calls : Nat := 0
  count : UInt32 := 0

/-- What is left of a call, with the iovecs that it took up. -/
structure Outcome where
  ending : Ending
  log : List Transfer := []
  mem : MemoryInstance

section Calls

variable (d : Direction) (positional : Bool) (device : Device)

/-- Hand a buffer to the file. The positional forms do not bother it with empty ones. -/
def callFile (calls len : Nat) : (List UInt8 × Option Errno) × Nat :=
  if positional ∧ len = 0 then (([], none), calls)
  else (((device calls).1.take len, (device calls).2), calls + 1)

/-- The iovec at an address. -/
def iovecAt (mem : MemoryInstance) (address : Nat) : Transfer where
  address
  offset := u32At mem.buffer address
  len := u32At mem.buffer (address + 4)

/-- A read skips empty buffers. -/
def Skips (t : Transfer) : Prop := d = .read ∧ t.len = 0

instance decidableSkips (t : Transfer) : Decidable (Skips d t) := inferInstanceAs (Decidable (_ ∧ _))

/-- How the answer of the file ends the loop, if it does. A read stops behind a buffer that it does
not fill. -/
def ends (len moved : Nat) : Option Errno → Option Ending
  | some .ENOSYS => some (.errno .EBADF)
  | some e => some (.errno e)
  | none => if d = .read ∧ moved < len then some .done else none

/-- The memory with the bytes that were read. -/
def landed (mem : MemoryInstance) (t : Transfer) (bytes : List UInt8) : MemoryInstance :=
  if d = .read then { mem with buffer := overwrite mem.buffer t.offset.toNat bytes } else mem

/-- One round of the loops of `readv` and `writev`, and how it ends the loop, if it does. -/
def moveOne (s : Progress) (t : Transfer) : Option Ending × Transfer × Progress :=
  if Skips d t then (none, t, s)
  else
    match s.mem.read t.offset t.len with
    | .error _ => (some .panic, t, s)
    | .ok none => (some (.errno .EFAULT), { t with errno := some .EFAULT }, s)
    | .ok (some _) =>
      match callFile positional device s.calls t.len.toNat with
      | ((bytes, errno), calls) =>
        (ends d t.len.toNat bytes.length errno, { t with moved := bytes.length, errno },
          { mem := landed d s.mem t bytes, calls,
            count := s.count + UInt32.ofNat bytes.length })

/-- The loops, over `n` iovecs. -/
def moveAll : Nat → Nat → Progress → Ending × List Transfer × Progress
  | 0, _, s => (.done, [], s)
  | n + 1, address, s =>
    match moveOne d positional device s (iovecAt s.mem address) with
    | (some e, t, s) => (e, [t], s)
    | (none, t, s) => ((moveAll n (address + 8) s).1, t :: (moveAll n (address + 8) s).2.1,
        (moveAll n (address + 8) s).2.2)

/-- A call on an open file. -/
def call (mem : MemoryInstance) (iovs iovsCount result : UInt32) : Outcome :=
  let iovsStop := iovsCount <<< 3
  match mem.read iovs iovsStop with
  | .error _ => { ending := .panic, mem }
  | .ok none => { ending := .errno .EFAULT, mem }
  | .ok (some _) =>
    match moveAll d positional device (iovsStop.toNat / 8) iovs.toNat { mem } with
    | (.done, log, s) =>
      match s.mem.writeUint32Le result s.count with
      | .error _ => { ending := .panic, log, mem := s.mem }
      | .ok none => { ending := .errno .EFAULT, log, mem := s.mem }
      | .ok (some mem) => { ending := .done, log, mem }
    | (ending, log, s) => { ending, log, mem := s.mem }

end Calls

/-! ### What a loop does -/

/-- The buffer ends where a memory of 4 GiB ends, which is where the accessors of memory panic. -/
def Transfer.AtEnd (size : Nat) (t : Transfer) : Prop :=
  t.offset.toNat + t.len.toNat = 2 ^ 32 ∧ size = 2 ^ 32

instance decidableAtEnd (size : Nat) (t : Transfer) : Decidable (t.AtEnd size) :=
  inferInstanceAs (Decidable (_ ∧ _))

/-- The file is asked for the buffer, which is in memory, and answers. -/
structure Asked (d : Direction) (positional : Bool) (device : Device) (size calls : Nat)
    (t : Transfer) (bytes : List UInt8) (errno : Option Errno) (calls' : Nat) : Prop where
  skips : ¬ Skips d t
  atEnd : ¬ t.AtEnd size
  inside : t.offset.toNat + t.len.toNat ≤ size
  answer : callFile positional device calls t.len.toNat = ((bytes, errno), calls')

/-- A loop over `n` iovecs from `address` on, in a memory of `size` bytes. -/
inductive Moves (d : Direction) (positional : Bool) (device : Device) (size : Nat) :
    Nat → Nat → Progress → Ending → List Transfer → Progress → Prop
  | nil (address : Nat) (s : Progress) : Moves d positional device size 0 address s .done [] s
  | skip {n address : Nat} {s s' : Progress} {e : Ending} {ts : List Transfer}
      (hskips : Skips d (iovecAt s.mem address))
      (hrest : Moves d positional device size n (address + 8) s e ts s') :
    Moves d positional device size (n + 1) address s e (iovecAt s.mem address :: ts) s'
  | panic {n address : Nat} {s : Progress} (hskips : ¬ Skips d (iovecAt s.mem address))
      (hend : (iovecAt s.mem address).AtEnd size) :
    Moves d positional device size (n + 1) address s .panic [iovecAt s.mem address] s
  | outside {n address : Nat} {s : Progress} (hskips : ¬ Skips d (iovecAt s.mem address))
      (hend : ¬ (iovecAt s.mem address).AtEnd size)
      (hout : size < (iovecAt s.mem address).offset.toNat + (iovecAt s.mem address).len.toNat) :
    Moves d positional device size (n + 1) address s (.errno .EFAULT)
      [{ iovecAt s.mem address with errno := some .EFAULT }] s
  | stop {n address calls : Nat} {s : Progress} {e : Ending} {bytes : List UInt8}
      {errno : Option Errno}
      (hasked : Asked d positional device size s.calls (iovecAt s.mem address) bytes errno calls)
      (hends : ends d (iovecAt s.mem address).len.toNat bytes.length errno = some e) :
    Moves d positional device size (n + 1) address s e
      [{ iovecAt s.mem address with moved := bytes.length, errno }]
      ⟨landed d s.mem (iovecAt s.mem address) bytes, calls, s.count + UInt32.ofNat bytes.length⟩
  | next {n address calls : Nat} {s s' : Progress} {e : Ending} {ts : List Transfer}
      {bytes : List UInt8} {errno : Option Errno}
      (hasked : Asked d positional device size s.calls (iovecAt s.mem address) bytes errno calls)
      (hends : ends d (iovecAt s.mem address).len.toNat bytes.length errno = none)
      (hrest : Moves d positional device size n (address + 8)
        ⟨landed d s.mem (iovecAt s.mem address) bytes, calls, s.count + UInt32.ofNat bytes.length⟩
        e ts s') :
    Moves d positional device size (n + 1) address s e
      ({ iovecAt s.mem address with moved := bytes.length, errno } :: ts) s'

variable {d : Direction} {positional : Bool} {device : Device} {size : Nat}

theorem ends_eq_none {len moved : Nat} {errno : Option Errno} :
    ends d len moved errno = none ↔ errno = none ∧ ¬ (d = .read ∧ moved < len) := by
  cases errno with
  | none =>
    rw [ends, and_iff_right rfl]
    exact ite_eq_right_iff.trans (imp_congr_right fun _ => by simp)
  | some e => cases e <;> exact iff_of_false nofun nofun

theorem ends_eq_some {len moved : Nat} {errno : Option Errno} {e : Ending}
    (h : ends d len moved errno = some e) :
    (errno ≠ none ∧ ∃ e', e = .errno e') ∨ errno = none ∧ (d = .read ∧ moved < len) ∧ e = .done := by
  cases errno with
  | none =>
    rw [ends] at h
    split at h
    · next hshort => exact .inr ⟨rfl, hshort, (Option.some.inj h).symm⟩
    · cases h
  | some e => cases e <;> cases h <;> exact .inl ⟨nofun, _, rfl⟩

theorem length_callFile_le (calls len : Nat) :
    (callFile positional device calls len).1.1.length ≤ len := by
  rw [callFile]
  split
  · exact Nat.zero_le _
  · exact List.length_take_le _ _

/-- The file gives no more bytes than asked for, so that memory keeps its size. -/
theorem Asked.length_landed {mem : MemoryInstance} {t : Transfer} {calls calls' : Nat}
    {bytes : List UInt8} {errno : Option Errno} (hmem : mem.buffer.length = size)
    (h : Asked d positional device size calls t bytes errno calls') :
    (landed d mem t bytes).buffer.length = size := by
  have hle := @length_callFile_le positional device calls t.len.toNat
  rw [h.answer] at hle
  rw [landed]
  split
  · rw [← hmem]
    refine length_overwrite (Nat.le_trans (Nat.add_le_add_left hle _) ?_)
    rw [hmem]
    exact h.inside
  · exact hmem

theorem moves_moveAll (n address : Nat) (s : Progress) (hmem : s.mem.buffer.length = size)
    (hsize : size ≤ 2 ^ 32) :
    Moves d positional device size n address s (moveAll d positional device n address s).1
      (moveAll d positional device n address s).2.1 (moveAll d positional device n address s).2.2 := by
  induction n generalizing address s with
  | zero => exact .nil address s
  | succ n ih =>
    rw [moveAll, moveOne]
    -- a read skips an empty buffer before it looks at memory, a write does not
    by_cases hskips : Skips d (iovecAt s.mem address)
    · rw [if_pos hskips]
      exact .skip hskips (ih (address + 8) s hmem)
    rw [if_neg hskips, MemoryInstance.read, Wasm.MemoryInstance.readLe_eq (hmem.trans_le hsize),
      hmem]
    by_cases hfit : (iovecAt s.mem address).offset.toNat + (iovecAt s.mem address).len.toNat ≤ size
    · rw [if_pos hfit]
      -- the end of the buffer is computed in 32 bits: at the very end of memory it is zero
      by_cases hwrap :
          (iovecAt s.mem address).offset.toNat + (iovecAt s.mem address).len.toNat = 2 ^ 32
      · rw [if_pos hwrap]
        exact .panic hskips ⟨hwrap, by omega⟩
      · rw [if_neg hwrap]
        simp only [Except.map]
        rcases hanswer : callFile positional device s.calls (iovecAt s.mem address).len.toNat with
          ⟨⟨bytes, errno⟩, calls⟩
        have hasked : Asked d positional device size s.calls (iovecAt s.mem address) bytes errno
            calls := ⟨hskips, fun h => hwrap h.1, hfit, hanswer⟩
        dsimp only
        cases hends : ends d (iovecAt s.mem address).len.toNat bytes.length errno with
        | some e => exact .stop hasked hends
        | none => exact .next hasked hends (ih (address + 8) _ (hasked.length_landed hmem))
    · rw [if_neg hfit]
      exact .outside hskips (fun h => hfit (h.1.trans h.2.symm).le) (not_le.mp hfit)

def total (log : List Transfer) : Nat := (log.map Transfer.moved).sum

theorem total_cons (t : Transfer) (ts : List Transfer) : total (t :: ts) = t.moved + total ts := by
  rw [total, List.map_cons, List.sum_cons, total]

section Facts

variable {n address : Nat} {s s' : Progress} {ts : List Transfer} {e : Ending}

theorem Moves.count (h : Moves d positional device size n address s e ts s') :
    s'.count = s.count + UInt32.ofNat (total ts) := by
  induction h with
  | nil | panic | outside => exact (UInt32.add_zero _).symm
  | skip _ _ ih =>
    rw [ih, total_cons]
    exact congrArg (_ + UInt32.ofNat ·) (Nat.zero_add _).symm
  | stop => exact congrArg (_ + UInt32.ofNat ·) (Nat.add_zero _).symm
  | next _ _ _ ih => rw [ih, total_cons, UInt32.ofNat_add, UInt32.add_assoc]

theorem Moves.length (h : Moves d positional device size n address s e ts s')
    (hmem : s.mem.buffer.length = size) : s'.mem.buffer.length = size := by
  induction h with
  | nil | panic | outside => exact hmem
  | skip _ _ ih => exact ih hmem
  | stop hasked _ => exact hasked.length_landed hmem
  | next hasked _ _ ih => exact ih (hasked.length_landed hmem)

end Facts

/-! ### Conditions on the iovecs, the memory and the file -/

section Conditions

variable (d : Direction) (positional : Bool) (device : Device) (size : Nat)

/-- None of the buffers that are taken up ends where a memory of 4 GiB ends. -/
def Clear : Nat → Nat → Nat → MemoryInstance → Prop
  | 0, _, _, _ => True
  | n + 1, address, calls, mem =>
    let t := iovecAt mem address
    if Skips d t then Clear n (address + 8) calls mem
    else if t.AtEnd size then False
    else if size < t.offset.toNat + t.len.toNat then True
    else
      match callFile positional device calls t.len.toNat with
      | ((bytes, errno), calls) =>
        ends d t.len.toNat bytes.length errno = none →
          Clear n (address + 8) calls (landed d mem t bytes)

variable (result : UInt32)

/-- So many bytes can be reported: there are none, or their number has a place in memory and fits
in 32 bits. -/
def Reports (moved : Nat) : Prop := moved = 0 ∨ result.toNat + 4 ≤ size ∧ moved < 2 ^ 32

/-- The iovecs from `address` on, after so many bytes were moved, with or without a `gap` behind
them: an error comes up only if there are no bytes to report, no byte is moved behind a gap, and the
number at the end can be reported. -/
def Told : Nat → Nat → Nat → MemoryInstance → Nat → Bool → Prop
  | 0, _, _, _, moved, _ => Reports size result moved
  | n + 1, address, calls, mem, moved, gap =>
    let t := iovecAt mem address
    if Skips d t then Told n (address + 8) calls mem moved gap
    else if t.AtEnd size then False
    else if size < t.offset.toNat + t.len.toNat then moved = 0
    else
      match callFile positional device calls t.len.toNat with
      | ((bytes, errno), calls) =>
        if errno ≠ none then moved + bytes.length = 0
        else (gap → bytes.length = 0) ∧
          if d = .read ∧ bytes.length < t.len.toNat then Reports size result (moved + bytes.length)
          else Told n (address + 8) calls (landed d mem t bytes) (moved + bytes.length)
            (gap || bytes.length < t.len.toNat)

end Conditions

/-- The bytes that were moved are the first ones of the buffers, and none of these buffers if there
was a `gap` before. -/
def Contiguous : Bool → List Transfer → Prop
  | _, [] => True
  | gap, t :: ts => (gap → t.moved = 0) ∧ Contiguous (gap || t.moved < t.len.toNat) ts

/-- How a loop must end that began with so many bytes. -/
def Settled (size : Nat) (result : UInt32) (moved : Nat) (gap : Bool) (ts : List Transfer) :
    Ending → Prop
  | .panic => False
  | .errno _ => moved + total ts = 0
  | .done => Reports size result (moved + total ts) ∧ (moved + total ts = 0 ∨ Contiguous gap ts)

section Facts

variable {n address : Nat} {s s' : Progress} {ts : List Transfer} {e : Ending} {result : UInt32}

theorem settled_cons {moved : Nat} {gap : Bool} {t : Transfer} :
    Settled size result moved gap (t :: ts) e ↔ (gap → t.moved = 0) ∧
      Settled size result (moved + t.moved) (gap || t.moved < t.len.toNat) ts e := by
  cases e with
  | panic => exact (and_iff_right_of_imp False.elim).symm
  | errno e =>
    rw [Settled, Settled, total_cons, Nat.add_assoc]
    exact (and_iff_right_of_imp fun h _ => by omega).symm
  | done =>
    rw [Settled, Settled, total_cons, Nat.add_assoc, Contiguous, and_left_comm]
    refine and_congr_right fun _ => ⟨?_, ?_⟩
    · rintro (hzero | ⟨hgap, hrest⟩)
      · exact ⟨fun _ => by omega, .inl hzero⟩
      · exact ⟨hgap, .inr hrest⟩
    · rintro ⟨hgap, hzero | hrest⟩
      · exact .inl hzero
      · exact .inr ⟨hgap, hrest⟩

theorem settled_nil {moved : Nat} {gap : Bool} :
    Settled size result moved gap [] .done ↔ Reports size result moved :=
  and_iff_left (.inr trivial)

theorem Moves.clear_iff (h : Moves d positional device size n address s e ts s') :
    Clear d positional device size n address s.calls s.mem ↔ e ≠ .panic := by
  induction h with
  | nil => exact iff_of_true trivial nofun
  | skip hskips _ ih =>
    rw [Clear, if_pos hskips]
    exact ih
  | panic hskips hend =>
    rw [Clear, if_neg hskips, if_pos hend]
    exact iff_of_false id (· rfl)
  | outside hskips hend hout =>
    rw [Clear, if_neg hskips, if_neg hend, if_pos hout]
    exact iff_of_true trivial nofun
  | @stop n address calls s e bytes errno hasked hends =>
    rw [Clear, if_neg hasked.skips, if_neg hasked.atEnd, if_neg (not_lt.mpr hasked.inside),
      hasked.answer]
    refine iff_of_true (fun h => ?_) fun he => ?_
    · cases hends.symm.trans h
    · -- the file cannot make the call panic
      rcases ends_eq_some hends with ⟨-, e', rfl⟩ | ⟨-, -, rfl⟩ <;> cases he
  | next hasked hends _ ih =>
    rw [Clear, if_neg hasked.skips, if_neg hasked.atEnd, if_neg (not_lt.mpr hasked.inside),
      hasked.answer]
    exact (forall_prop_of_true hends).trans ih

theorem Moves.told_iff (h : Moves d positional device size n address s e ts s') (moved : Nat)
    (gap : Bool) : Told d positional device size result n address s.calls s.mem moved gap ↔
      Settled size result moved gap ts e := by
  induction h generalizing moved gap with
  | nil => exact settled_nil.symm
  | @skip n address s s' e ts hskips _ ih =>
    -- an empty buffer leaves no gap
    have hgap : (gap || decide ((iovecAt s.mem address).moved < (iovecAt s.mem address).len.toNat)) =
        gap := by
      rw [hskips.2]
      exact Bool.or_false gap
    rw [Told, if_pos hskips, ih, settled_cons, hgap]
    exact (and_iff_right fun _ => rfl).symm
  | panic hskips hend =>
    rw [Told, if_neg hskips, if_pos hend]
    exact Iff.rfl
  | outside hskips hend hout =>
    rw [Told, if_neg hskips, if_neg hend, if_pos hout]
    exact Iff.rfl
  | @stop n address calls s e bytes errno hasked hends =>
    rw [Told, if_neg hasked.skips, if_neg hasked.atEnd, if_neg (not_lt.mpr hasked.inside),
      hasked.answer, settled_cons]
    dsimp only
    rcases ends_eq_some hends with ⟨hsome, e', rfl⟩ | ⟨hnone, hshort, rfl⟩
    · rw [if_pos hsome]
      exact (and_iff_right_of_imp fun (h : moved + bytes.length = 0) _ => by omega).symm
    · rw [if_neg (not_not.mpr hnone), if_pos hshort, settled_nil]
  | @next n address calls s s' e ts bytes errno hasked hends _ ih =>
    obtain ⟨hnone, hfull⟩ := ends_eq_none.mp hends
    rw [Told, if_neg hasked.skips, if_neg hasked.atEnd, if_neg (not_lt.mpr hasked.inside),
      hasked.answer, settled_cons]
    dsimp only
    rw [if_neg (not_not.mpr hnone), if_neg hfull, ih]

end Facts

/-! ### Whole calls -/

/-- The memory of a guest, which has at most 4 GiB. -/
structure GuestMemory extends MemoryInstance where
  size_le : buffer.length ≤ 2 ^ 32

/-- A range of memory that is read ends where a memory of 4 GiB ends. -/
def AtEnd (mem : GuestMemory) (offset : UInt32) (n : Nat) : Prop :=
  offset.toNat + n = 2 ^ 32 ∧ mem.buffer.length = 2 ^ 32

variable {mem : GuestMemory} {iovs iovsCount result : UInt32}

theorem toNat_iovsStop (iovsCount : UInt32) :
    (iovsCount <<< 3).toNat = 8 * iovsCount.toNat % 2 ^ 32 := by
  rw [UInt32.toNat_shiftLeft, Nat.shiftLeft_eq, Nat.mul_comm]
  rfl

/-- The list of iovecs, as far as the call sees it, is not in memory, ends where memory ends, or is
taken up; then the number of bytes is in memory at the end, if the call succeeds. -/
theorem call_cases (mem : GuestMemory) (iovs iovsCount result : UInt32) :
    (mem.buffer.length < iovs.toNat + 8 * iovsCount.toNat % 2 ^ 32 ∧
      call d positional device mem.toMemoryInstance iovs iovsCount result =
        { ending := .errno .EFAULT, mem := mem.toMemoryInstance }) ∨
    (AtEnd mem iovs (8 * iovsCount.toNat % 2 ^ 32) ∧
      call d positional device mem.toMemoryInstance iovs iovsCount result =
        { ending := .panic, mem := mem.toMemoryInstance }) ∨
    iovs.toNat + 8 * iovsCount.toNat % 2 ^ 32 ≤ mem.buffer.length ∧
      ¬ AtEnd mem iovs (8 * iovsCount.toNat % 2 ^ 32) ∧
      ∃ e s outcome, call d positional device mem.toMemoryInstance iovs iovsCount result = outcome ∧
        Moves d positional device mem.buffer.length (8 * iovsCount.toNat % 2 ^ 32 / 8) iovs.toNat
          { mem := mem.toMemoryInstance } e outcome.log s ∧
        (outcome.ending = if e = .done then
          if result.toNat + 4 ≤ mem.buffer.length then .done else .errno .EFAULT else e) ∧
        (outcome.ending = .done →
          u32At outcome.mem.buffer result.toNat = UInt32.ofNat (total outcome.log)) := by
  rw [call, MemoryInstance.read, Wasm.MemoryInstance.readLe_eq mem.size_le, toNat_iovsStop]
  by_cases hfit : iovs.toNat + 8 * iovsCount.toNat % 2 ^ 32 ≤ mem.buffer.length
  · rw [if_pos hfit]
    -- the list of buffers itself may end where memory ends
    by_cases hend : iovs.toNat + 8 * iovsCount.toNat % 2 ^ 32 = 2 ^ 32
    · rw [if_pos hend]
      exact .inr (.inl ⟨⟨hend, le_antisymm mem.size_le (hend ▸ hfit)⟩, rfl⟩)
    · rw [if_neg hend]
      refine .inr (.inr ⟨hfit, fun h => hend h.1, ?_⟩)
      have hmoves := @moves_moveAll d positional device _ (8 * iovsCount.toNat % 2 ^ 32 / 8)
        iovs.toNat { mem := mem.toMemoryInstance } rfl mem.size_le
      simp only [Except.map]
      generalize moveAll d positional device _ iovs.toNat _ = r at hmoves ⊢
      obtain ⟨e, ts, s⟩ := r
      have hlen : s.mem.buffer.length = mem.buffer.length := hmoves.length rfl
      have hcount : s.count = UInt32.ofNat (total ts) := hmoves.count.trans (UInt32.zero_add _)
      refine ⟨e, s, ?_⟩
      cases e with
      | done =>
        dsimp only
        rw [MemoryInstance.writeUint32Le, Wasm.MemoryInstance.store_eq, LittleEndian.length_le32,
          hlen, if_pos rfl]
        by_cases hres : result.toNat + 4 ≤ mem.buffer.length
        · rw [if_pos hres, if_pos hres]
          refine ⟨_, rfl, hmoves, rfl, fun _ => ?_⟩
          rw [← hcount]
          exact u32At_append (List.length_take_of_le (by omega))
        · rw [if_neg hres, if_neg hres]
          exact ⟨_, rfl, hmoves, rfl, nofun⟩
      | errno e => exact ⟨_, rfl, hmoves, rfl, nofun⟩
      | panic => exact ⟨_, rfl, hmoves, rfl, nofun⟩
  · rw [if_neg hfit]
    exact .inl ⟨not_le.mp hfit, rfl⟩

/-- The guest is told about every byte that was moved: the call succeeds, their number is in memory
at `result` and they are the first ones of the buffers, or it fails and none was moved. -/
def Accounts (result : UInt32) (o : Outcome) : Prop :=
  (o.ending = .done ∧ (u32At o.mem.buffer result.toNat).toNat = total o.log ∧
    Contiguous false o.log) ∨
  (∃ e, o.ending = .errno e) ∧ total o.log = 0

theorem contiguous_of_total {ts : List Transfer} (h : total ts = 0) (gap : Bool) :
    Contiguous gap ts := by
  induction ts generalizing gap with
  | nil => trivial
  | cons t ts ih =>
    rw [total_cons] at h
    exact ⟨fun _ => by omega, ih (by omega) _⟩

end Vectored

end Wasi
