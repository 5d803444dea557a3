import WasmRecorder.Wasi.Poll

/-!
# Counts that the guest supplies

The calls that take a list of things in guest memory compute its size in bytes in 32 bits, before
they look whether it is in memory. A count that is large enough makes the size small.

* `GuestCall` — the calls on iovecs and on subscriptions.
* `Honoured` — the count is taken as it is: the things it counts are worked on, or they are not all
  in memory and the call says so.
* `honoured_iff` — when that is so.
-/

namespace Wasi

namespace GuestCounts

open Checked Slice
open Wasm (Bytes)
open Vectored (GuestMemory AtEnd Transfer Direction Device Moves Clear ends_eq_some)
open Poll (State processOne pollOneoff finish started)

/-! ### Iovecs -/

section Moves

variable {d : Direction} {positional : Bool} {device : Device} {size n address : Nat}
  {s s' : Vectored.Progress} {t : Transfer} {ts : List Transfer} {e : Vectored.Ending}

/-- The iovecs stand one behind the other from `address` on. -/
def InRow (address : Nat) (ts : List Transfer) : Prop :=
  ts.map Transfer.address = (List.range ts.length).map (address + 8 * ·)

theorem InRow.cons (ht : t.address = address) (hts : InRow (address + 8) ts) :
    InRow address (t :: ts) := by
  rw [InRow] at hts
  rw [InRow, List.map_cons, hts, List.length_cons, List.range_succ_eq_map, List.map_cons,
    List.map_map, ht]
  refine congrArg (List.cons _) (List.map_congr_left fun i _ => ?_)
  change address + 8 + 8 * i = address + 8 * (i + 1)
  omega

theorem inRow_of_moves (h : Moves d positional device size n address s e ts s') :
    InRow address ts := by
  induction h with
  | nil | panic | outside | stop => rfl
  | skip _ _ ih => exact ih.cons rfl
  | next _ _ _ ih => exact ih.cons rfl

theorem length_le_of_moves (h : Moves d positional device size n address s e ts s') :
    ts.length ≤ n := by
  induction h with
  | nil => exact Nat.le_refl 0
  | panic | outside | stop => exact Nat.succ_le_succ (Nat.zero_le _)
  | skip _ _ ih | next _ _ _ ih => exact Nat.succ_le_succ ih

theorem ne_nil_of_moves (h : Moves d positional device size n address s e ts s') (hn : 0 < n) :
    ts ≠ [] := by
  cases h with
  | nil => exact absurd hn (lt_irrefl 0)
  | skip | panic | outside | stop | next => exact List.cons_ne_nil _ _

theorem nil_of_moves (h : Moves d positional device size 0 address s e ts s') :
    ts = [] ∧ e = .done := by
  cases h
  exact ⟨rfl, rfl⟩

/-- The last iovec was not filled, or met an error. -/
def Short (ts : List Transfer) : Prop :=
  ∃ t, ts.getLast? = some t ∧ (t.moved < t.len.toNat ∨ t.errno ≠ none)

theorem Short.cons (h : Short ts) : Short (t :: ts) := by
  obtain ⟨u, hu, hshort⟩ := h
  exact ⟨u, by rw [List.getLast?_cons, hu]; rfl, hshort⟩

theorem short_of_moves (h : Moves d positional device size n address s e ts s')
    (hlt : ts.length < n) (hpanic : e ≠ .panic) : Short ts := by
  induction h with
  | nil => exact absurd hlt (lt_irrefl 0)
  | skip _ _ ih => exact (ih (Nat.lt_of_succ_lt_succ hlt) hpanic).cons
  | panic => exact absurd rfl hpanic
  | outside => exact ⟨_, rfl, .inr nofun⟩
  | stop _ hends =>
    rcases ends_eq_some hends with ⟨hsome, -⟩ | ⟨-, hshort, -⟩
    · exact ⟨_, rfl, .inr hsome⟩
    · exact ⟨_, rfl, .inl hshort.2⟩
  | next _ _ _ ih => exact (ih (Nat.lt_of_succ_lt_succ hlt) hpanic).cons

end Moves

/-! ### Subscriptions -/

/-- A computation that does not report this error. -/
def Never {α : Type} (e : Errno) (x : Except (Fault Errno) α) : Prop := x ≠ .error (.error e)

section Never

variable {α β : Type} {e : Errno} {x : Except (Fault Errno) α} {f : α → Except (Fault Errno) β}

theorem never_bind (hx : Never e x) (hf : ∀ a, Never e (f a)) : Never e (x >>= f) := by
  match x, hx with
  | .ok a, _ => exact hf a
  | .error .panic, _ => rintro ⟨⟩
  | .error (.error e'), hx => exact fun h => hx (by injection h with h; rw [h])

theorem never_sub {b : List α} {i j : Nat} : Never e (sub b i j) := by
  rw [sub]
  split
  · rintro ⟨⟩
  · rintro ⟨⟩

theorem never_uint32 {b : Bytes} {off : Nat} : Never e (uint32 b off) := by
  rw [uint32]
  split
  · rintro ⟨⟩
  · rintro ⟨⟩

theorem never_uint64 {b : Bytes} {off : Nat} : Never e (uint64 b off) := by
  rw [uint64]
  split
  · rintro ⟨⟩
  · rintro ⟨⟩

theorem never_uint16 {b : Bytes} {off : Nat} : Never e (uint16 b off) := by
  rw [uint16]
  split
  · rintro ⟨⟩
  · rintro ⟨⟩

end Never

theorem processClockEvent_never (inBuf : Bytes) : Never .EFAULT (Poll.processClockEvent inBuf) := by
  refine never_bind never_uint64 fun t => never_bind (never_bind never_sub fun _ => never_uint16) ?_
  intro flags
  split
  · rintro ⟨⟩
  · split
    · rintro ⟨⟩
    · rintro ⟨⟩

section Rounds

variable {host : Poll.Host} {inn inSize out outSize i : Nat} {s : State}

theorem writeEvent_never (evt : Poll.Event) :
    Never .EFAULT (Poll.writeEvent out outSize evt s) := by
  rw [Poll.writeEvent]
  split
  · rintro ⟨⟩
  · rintro ⟨⟩

theorem processOne_never : Never .EFAULT (processOne host inn inSize out outSize s i) := by
  rw [processOne]
  dsimp only
  split
  · next eventType _ =>
    refine never_bind never_sub fun argBuf => never_bind never_sub fun _ => ?_
    split
    · exact never_bind (processClockEvent_never argBuf) fun t => writeEvent_never _
    · split
      · refine never_bind never_uint32 fun fd => ?_
        split
        · rintro ⟨⟩
        · split
          · exact writeEvent_never _
          · split
            · exact writeEvent_never _
            · rintro ⟨⟩
      · split
        · refine never_bind never_uint32 fun fd => ?_
          split
          · rintro ⟨⟩
          · exact writeEvent_never _
        · rintro ⟨⟩
  · rintro ⟨⟩

/-- The last round whose offset in bytes fits in 32 bits. -/
def lastRound : Nat := 89478485

/-- The round whose subscription would end where 32 bits end panics. -/
theorem processOne_lastRound (hsize : inSize ≤ 2 ^ 32 - 16) :
    processOne host inn inSize out outSize s lastRound = .error .panic := by
  have hlen : (slice s.mem.buffer inn (inn + inSize)).length ≤ inSize := by
    rw [slice, List.length_drop, List.length_take]
    omega
  have hindex : (UInt32.ofNat lastRound * 48 + 8).toNat = 2 ^ 32 - 8 := by decide
  rw [processOne, hindex, List.getElem?_eq_none (by omega)]
  rfl

theorem never_foldlM {α S : Type} {e : Errno} {f : S → α → Except (Fault Errno) S}
    (hf : ∀ s a, Never e (f s a)) {l : List α} {s : S} : Never e (l.foldlM f s) := by
  induction l generalizing s with
  | nil => rintro ⟨⟩
  | cons a l ih =>
    rw [List.foldlM_cons]
    exact never_bind (hf s a) fun s' => ih

/-- A loop over more subscriptions than 32 bits have room for ends with another error, or panics. -/
theorem loop_of_wraps {n : Nat} (hn : 2 ^ 32 ≤ 48 * n) (hsize : inSize ≤ 2 ^ 32 - 16)
    (finish : State → Except (Fault Errno) State) :
    (List.range n).foldlM (processOne host inn inSize out outSize) s >>= finish ≠
      .error (.error .EFAULT) := by
  have hnever : Never .EFAULT ((List.range n).foldlM (processOne host inn inSize out outSize) s) :=
    never_foldlM fun s i => processOne_never
  intro h
  match hloop : (List.range n).foldlM (processOne host inn inSize out outSize) s with
  | .error e =>
    rw [hloop] at h hnever
    exact hnever h
  | .ok s' =>
    -- the rounds go on past the end of the input, which is at most `2 ^ 32 - 16` bytes long
    have hmem : lastRound ∈ List.range n := List.mem_range.mpr (by rw [lastRound]; omega)
    obtain ⟨s₁, s₂, -, hround⟩ :=
      Fallible.foldlM_ok_of_mem (fun _ => True) (fun _ _ _ h _ => h) trivial hloop hmem
    rw [processOne_lastRound hsize] at hround
    cases hround

theorem finish_safe {n size : Nat} {nsubscriptions resultNevents : UInt32} (hn : 48 * n < 2 ^ 32)
    (h : Poll.Within size n s) :
    Safe (finish host out (32 * n) nsubscriptions resultNevents s) := by
  have hstore (s : State) : Safe (Poll.storeCount nsubscriptions resultNevents s) := by
    rw [Poll.storeCount, Poll.orFault_writeUint32Le]
    refine safe_ite (fun _ => safe_ok _) fun _ => ?_
    exact (safe_ite (fun _ => safe_ok _) fun _ => safe_error _).bind fun _ _ => safe_ok _
  rw [finish]
  refine safe_ite (fun _ => safe_ok _) fun _ => safe_ite (fun _ => safe_error _) fun _ => ?_
  split
  · exact safe_error _
  · refine safe_ite (fun _ => ?_) fun _ => hstore _
    rw [Poll.writeEvents_eq (s := s.polled) hn h.count_eq.le]
    exact hstore _

end Rounds

/-! ### Calls -/

inductive GuestCall where
  | vectored (d : Direction) (positional : Bool) (device : Device)
      (iovs iovsCount result : UInt32)
  | poll (host : Poll.Host) (inn out nsubscriptions resultNevents : UInt32)

/-- The range `[start, start + size)` is inside memory. -/
def Inside (mem : GuestMemory) (start : UInt32) (size : Nat) : Prop :=
  size = 0 ∨ start.toNat + size ≤ mem.buffer.length

/-- The call does not panic, and takes the count as it is. -/
def Honoured (mem : GuestMemory) : GuestCall → Prop
  | .vectored d positional device iovs c result =>
    let o := Vectored.call d positional device mem.toMemoryInstance iovs c result
    o.ending ≠ .panic ∧
      (Inside mem iovs (8 * c.toNat) → InRow iovs.toNat o.log ∧
        o.log.length ≤ c.toNat ∧ (o.log.length < c.toNat → Short o.log)) ∧
      (¬ Inside mem iovs (8 * c.toNat) → o.ending = .errno .EFAULT ∧ o.log = [])
  | .poll host inn out n result =>
    let x := pollOneoff host mem.toMemoryInstance inn out n result
    x ≠ .error .panic ∧
      (¬ (Inside mem inn (48 * n.toNat) ∧ Inside mem out (32 * n.toNat)) →
        x = .error (.error .EFAULT))

/-- The size that the call computes is the right one, or it is not in memory either; and no range
that is read ends where a memory of 4 GiB ends. -/
def Fits (mem : GuestMemory) : GuestCall → Prop
  | .vectored d positional device iovs c result =>
    ¬ AtEnd mem iovs (8 * c.toNat % 2 ^ 32) ∧
      (iovs.toNat + 8 * c.toNat % 2 ^ 32 ≤ mem.buffer.length →
        Clear d positional device mem.buffer.length (8 * c.toNat % 2 ^ 32 / 8) iovs.toNat 0
          mem.toMemoryInstance) ∧
      (8 * c.toNat < 2 ^ 32 ∨ mem.buffer.length < iovs.toNat + 8 * c.toNat % 2 ^ 32 ∨
        8 * c.toNat % 2 ^ 32 = 0 ∧ mem.buffer.length < iovs.toNat + 8 * c.toNat ∧
          mem.buffer.length < result.toNat + 4)
  | .poll _ inn out n result =>
    n = 0 ∨ mem.buffer.length < inn.toNat + 48 * n.toNat % 2 ^ 32 ∨
      ¬ AtEnd mem inn (48 * n.toNat % 2 ^ 32) ∧
        (mem.buffer.length < out.toNat + 32 * n.toNat % 2 ^ 32 ∨
          ¬ AtEnd mem out (32 * n.toNat % 2 ^ 32) ∧
            (mem.buffer.length < result.toNat + 4 ∨ 48 * n.toNat < 2 ^ 32))

section Iff

variable {mem : GuestMemory}

theorem vectored_honoured_iff (d : Direction) (positional : Bool) (device : Device)
    (iovs c result : UInt32) :
    Honoured mem (.vectored d positional device iovs c result) ↔
      Fits mem (.vectored d positional device iovs c result) := by
  have hsize := mem.size_le
  rw [Honoured, Fits]
  rcases @Vectored.call_cases d positional device mem iovs c result with
    ⟨hout, hcall⟩ | ⟨hend, hcall⟩ | ⟨hfit, hend, e, s, o, hcall, hmoves, hending, -⟩
  · rw [hcall]
    refine iff_of_true ⟨nofun, fun hin => ⟨rfl, Nat.zero_le _, fun hlt => ?_⟩, fun _ => ⟨rfl, rfl⟩⟩
      ⟨fun hend => ?_, fun hle => absurd hle (not_le.mpr hout), Or.inr (Or.inl hout)⟩
    · change 0 < c.toNat at hlt
      rcases hin with hin | hin <;> omega
    · rw [AtEnd] at hend
      omega
  · rw [hcall]
    exact iff_of_false (fun h => h.1 rfl) fun h => h.1 hend
  · rw [hcall]
    rw [and_iff_right hend]
    by_cases hpanic : e = .panic
    · rw [hpanic] at hending
      exact iff_of_false (fun h => h.1 hending) fun h => hmoves.clear_iff.mp (h.1 hfit) hpanic
    -- storing the count does not panic
    have hno : o.ending ≠ .panic := by
      rw [hending]
      split
      · split <;> rintro ⟨⟩
      · exact hpanic
    rw [and_iff_right hno, and_iff_right fun _ => hmoves.clear_iff.mpr hpanic]
    by_cases hc : 8 * c.toNat < 2 ^ 32
    · -- the size is the right one
      have hn : 8 * c.toNat % 2 ^ 32 / 8 = c.toNat := by omega
      rw [hn] at hmoves
      refine iff_of_true ⟨fun _ => ⟨inRow_of_moves hmoves, length_le_of_moves hmoves,
        fun hlt => short_of_moves hmoves hlt hpanic⟩, fun hout => ?_⟩ (Or.inl hc)
      exact absurd (Or.inr (by omega)) hout
    · -- the size is too small
      by_cases hzero : 8 * c.toNat % 2 ^ 32 = 0
      · rw [hzero, Nat.zero_div] at hmoves
        obtain ⟨hlog, rfl⟩ := nil_of_moves hmoves
        have hin : Inside mem iovs (8 * c.toNat) ↔ iovs.toNat + 8 * c.toNat ≤ mem.buffer.length :=
          or_iff_right (by omega)
        -- no buffer is looked at, though there are some
        have hshort : ¬ (o.log.length < c.toNat → Short o.log) := by
          rw [hlog]
          intro h
          obtain ⟨t, ht, -⟩ := h (by change 0 < c.toNat; omega)
          cases ht
        rw [if_pos rfl] at hending
        by_cases hresult : result.toNat + 4 ≤ mem.buffer.length
        · rw [if_pos hresult] at hending
          refine iff_of_false (fun h => ?_) (by omega)
          by_cases hinside : Inside mem iovs (8 * c.toNat)
          · exact hshort (h.1 hinside).2.2
          · have := (h.2 hinside).1
            rw [hending] at this
            cases this
        · rw [if_neg hresult] at hending
          constructor
          · intro h
            refine Or.inr (Or.inr ⟨hzero, not_le.mp fun hle => ?_, by omega⟩)
            exact hshort (h.1 (hin.mpr hle)).2.2
          · intro h
            have hout : ¬ Inside mem iovs (8 * c.toNat) := by
              rw [hin]
              omega
            exact ⟨fun h => absurd h hout, fun _ => ⟨hending, hlog⟩⟩
      · -- some buffers are used, though the list does not lie in memory
        have hlog : o.log ≠ [] := ne_nil_of_moves hmoves (by omega)
        refine iff_of_false (fun h => ?_) (by omega)
        refine hlog (h.2 ?_).2
        rintro (hin | hin) <;> omega

theorem poll_honoured_iff (host : Poll.Host) (inn out n result : UInt32) :
    Honoured mem (.poll host inn out n result) ↔ Fits mem (.poll host inn out n result) := by
  have hsize := mem.size_le
  rw [Honoured, Fits]
  by_cases hn0 : n = 0
  · rw [hn0]
    exact iff_of_true ⟨nofun, fun h => absurd ⟨Or.inl rfl, Or.inl rfl⟩ h⟩ (Or.inl rfl)
  have hpos : 0 < n.toNat := Nat.pos_of_ne_zero fun h => hn0 (UInt32.toNat.inj h)
  -- the two sizes are computed in 32 bits
  have hin : (n * 48).toNat = 48 * n.toNat % 2 ^ 32 := by rw [UInt32.toNat_mul, Nat.mul_comm]; rfl
  have hout : (n * 32).toNat = 32 * n.toNat % 2 ^ 32 := by rw [UInt32.toNat_mul, Nat.mul_comm]; rfl
  rw [Poll.pollOneoff_eq hn0, or_iff_right hn0, AtEnd, AtEnd, Inside, Inside, hin, hout]
  split
  swap
  · exact iff_of_true ⟨nofun, fun _ => rfl⟩ (Or.inl (by omega))
  split
  · exact iff_of_false (fun h => h.1 rfl) (by omega)
  split
  swap
  · exact iff_of_true ⟨nofun, fun _ => rfl⟩ (Or.inr ⟨by omega, Or.inl (by omega)⟩)
  split
  · exact iff_of_false (fun h => h.1 rfl) (by omega)
  split
  swap
  · exact iff_of_true ⟨nofun, fun _ => rfl⟩
      (Or.inr ⟨by omega, Or.inr ⟨by omega, Or.inl (by omega)⟩⟩)
  -- what is left: the call gets as far as the loop
  next hinFits _ houtFits _ hresult =>
  by_cases hwraps : 48 * n.toNat < 2 ^ 32
  · rw [Nat.mod_eq_of_lt hwraps, Nat.mod_eq_of_lt (by omega)] at *
    refine iff_of_true ⟨?_, fun h => absurd ⟨Or.inr hinFits, Or.inr houtFits⟩ h⟩
      (Or.inr ⟨by omega, Or.inr ⟨by omega, Or.inr hwraps⟩⟩)
    -- the sizes are the right ones, and all rounds stay inside of them
    have hstart : Poll.Within mem.buffer.length 0
        { mem := started mem.toMemoryInstance out n result } :=
      ⟨Poll.length_started (hout ▸ houtFits) hresult, rfl, nofun⟩
    obtain ⟨hsafe, hwithin⟩ := @Poll.loop_within host _ _ _ _ _ hwraps hinFits houtFits hstart
    exact hsafe.bind fun s hs => finish_safe hwraps (hwithin s hs)
  · refine iff_of_false (fun h => ?_) (by omega)
    exact loop_of_wraps (not_lt.mp hwraps) (by omega) _ (h.2 fun h => by omega)

end Iff

/-- **Counts are taken as they are** exactly when their sizes in bytes fit in 32 bits, or the call
fails in another way that is right. -/
theorem honoured_iff (mem : GuestMemory) (call : GuestCall) : Honoured mem call ↔ Fits mem call :=
  match call with
  | .vectored d positional device iovs iovsCount result =>
    vectored_honoured_iff d positional device iovs iovsCount result
  | .poll host inn out nsubscriptions resultNevents =>
    poll_honoured_iff host inn out nsubscriptions resultNevents

/-- 2^29 iovecs in a memory of four bytes: the call succeeds and takes up none. -/
theorem not_honoured_iovecs :
    ¬ Honoured ⟨⟨[0, 0, 0, 0], 1⟩, by decide⟩
      (.vectored .read false (fun _ => ([], none)) 0 536870912 0) := by
  intro h
  have hout : ¬ Inside ⟨⟨[0, 0, 0, 0], 1⟩, by decide⟩ 0 (8 * 536870912) := by
    rw [Inside]
    decide
  exact absurd (h.2.2 hout).1 (by decide +kernel)

end GuestCounts

end Wasi
