import WasmRecorder.Wasi.Vectored
import WasmRecorder.Lib.Fallible

/-!
# Waiting for events

`poll_oneoff` goes through a list of subscriptions of 48 bytes each, and writes a record of 32
bytes for each event. Clocks, and files that need no waiting, are acknowledged at once. Files in
blocking mode are put off until standard input was polled.

* `pollOneoff` — the call, with what it does besides writing to memory: the time it slept and the
  time it let standard input wait; `records` are the writes to the output.
* `advance` — what one subscription does; `processOne_sound`.
* `Acknowledged` — the memory and the records, after some subscriptions were acknowledged.
* `Reported`, `OnTime` — what is expected of the memory at the end and of the times.
* `pollOneoff_iff` — **when a call that succeeds meets both**, by its subscriptions and the
  descriptors.

The number of events and the records may overlap, if the guest has the number stored in the output:
`Undisturbed` says when each survives.
-/

namespace Wasi

namespace Poll

open Checked LittleEndian Slice
open Fallible (returnsWith returnsWith_iff)
open Wasm (MemoryInstance Bytes)
open Vectored (GuestMemory)

/-- What the call finds outside: the descriptors in use, with whether the file is in non-blocking
mode, and what polling standard input for some milliseconds leads to. -/
structure Host where
  files : Nat → Option Bool
  pollStdin : Int32 → Except Errno Bool

/-- An event. `userData` is where its user data stands in memory. -/
structure Event where
  eventType : UInt8
  userData : Nat
  errno : UInt8 := 0
  deriving DecidableEq, Repr

/-- A record that was written, at an offset from the output. -/
structure Record where
  offset : Nat
  bytes : Bytes
  deriving DecidableEq, Repr

structure State where
  mem : MemoryInstance
  nevents : UInt32 := 0
  timeout : Int64 := Int64.maxValue
  blockingStdinSubs : List Event := []
  records : List Record := []
  /-- The argument of `Nanosleep`. -/
  slept : Option Int64 := none
  /-- The timeout standard input was polled with. -/
  waited : Option Int32 := none

/-! ### The call -/

def errnoBadf : UInt8 := 8

def errnoNotsup : UInt8 := 58

def eventTypeClock : UInt8 := 0

def eventTypeFdRead : UInt8 := 1

def eventTypeFdWrite : UInt8 := 2

/-- Only relative times are supported. The identifier and the precision are not looked at. -/
def processClockEvent (inBuf : Bytes) : Except (Fault Errno) Int64 := do
  let timeout ← uint64 inBuf 8
  let flags ← sub inBuf 24 32 >>= (uint16 · 0)
  if flags = 0 then return timeout.toInt64
  else if flags = 1 then throw (.error .ENOTSUP)
  else throw (.error .EINVAL)

/-- The bytes of a record that are written: the user data, the error and the type. -/
def eventBytes (mem : MemoryInstance) (evt : Event) : Bytes :=
  slice mem.buffer evt.userData (evt.userData + 8) ++ [evt.errno, 0] ++ le32 evt.eventType.toUInt32

/-- The state with the next record written. -/
def acked (out : Nat) (evt : Event) (s : State) : State :=
  let offset := (s.nevents * 32).toNat
  { s with
    mem := { s.mem with buffer := overwrite s.mem.buffer (out + offset) (eventBytes s.mem evt) }
    nevents := s.nevents + 1
    records := s.records ++ [⟨offset, eventBytes s.mem evt⟩] }

/-- Write the next record into an output of `size` bytes. -/
def writeEvent (out size : Nat) (evt : Event) (s : State) : Except (Fault Errno) State :=
  if (s.nevents * 32).toNat + 14 ≤ size then .ok (acked out evt s) else .error .panic

/-- The state with the timeout cut down. -/
def State.limit (s : State) (newTimeout : Int64) : State :=
  { s with timeout := if newTimeout < s.timeout then newTimeout else s.timeout }

/-- One round of the loop, over an input of `inSize` bytes and an output of `outSize`. -/
def processOne (host : Host) (inn inSize out outSize : Nat) (s : State) (i : Nat) :
    Except (Fault Errno) State := do
  let inOffset := UInt32.ofNat i * 48
  let inBuf := slice s.mem.buffer inn (inn + inSize)
  let some eventType := inBuf[(inOffset + 8).toNat]? | throw .panic
  let argBuf ← sub inBuf (inOffset + 8 + 8).toNat inBuf.length
  let _ ← sub inBuf inOffset.toNat (inOffset + 8).toNat
  let evt : Event := { eventType, userData := inn + inOffset.toNat }
  if eventType = eventTypeClock then
    let newTimeout ← processClockEvent argBuf
    writeEvent out outSize evt (s.limit newTimeout)
  else if eventType = eventTypeFdRead then
    let fd ← uint32 argBuf 0
    if fd.toInt32 < 0 then throw (.error .EBADF)
    else match host.files fd.toNat with
      | none => writeEvent out outSize { evt with errno := errnoBadf } s
      | some nonblock =>
        if fd ≠ 0 ∧ nonblock then writeEvent out outSize evt s
        else return { s with blockingStdinSubs := s.blockingStdinSubs ++ [evt] }
  else if eventType = eventTypeFdWrite then
    let fd ← uint32 argBuf 0
    if fd.toInt32 < 0 then throw (.error .EBADF)
    else
      let errno := if (host.files fd.toNat).isSome then errnoNotsup else errnoBadf
      writeEvent out outSize { evt with errno } s
  else throw (.error .EINVAL)

/-- An access to memory by a call that ends with an error when it fails. -/
def orFault {α : Type} : Checked.Call (Option α) → Except (Fault Errno) α
  | .ok (some a) => .ok a
  | .ok none => .error (.error .EFAULT)
  | .error _ => .error .panic

/-- The state when standard input was polled for the milliseconds of the timeout. -/
def State.polled (s : State) : State := { s with waited := some (s.timeout / 1000000).toInt32 }

/-- Correct the count of events. -/
def storeCount (nsubscriptions resultNevents : UInt32) (s : State) :
    Except (Fault Errno) State := do
  if s.nevents = nsubscriptions then return s
  else
    let mem ← orFault (s.mem.writeUint32Le resultNevents s.nevents)
    return { s with mem }

/-- What follows the loop. -/
def finish (host : Host) (out outSize : Nat) (nsubscriptions resultNevents : UInt32) (s : State) :
    Except (Fault Errno) State := do
  if s.nevents = nsubscriptions then
    return { s with slept := if 0 < s.timeout then some s.timeout else none }
  else if host.files 0 = none then throw (.error .EBADF)
  else
    match host.pollStdin (s.timeout / 1000000).toInt32 with
    | .error e => throw (.error e)
    | .ok stdinReady =>
      if stdinReady then
        s.blockingStdinSubs.foldlM
          (fun s evt => writeEvent out outSize { evt with errno := 0 } s) s.polled >>=
          storeCount nsubscriptions resultNevents
      else storeCount nsubscriptions resultNevents s.polled

def pollOneoff (host : Host) (mem : MemoryInstance)
    (inn out nsubscriptions resultNevents : UInt32) : Except (Fault Errno) State := do
  if nsubscriptions = 0 then throw (.error .EINVAL) else
  let inBuf ← orFault (mem.read inn (nsubscriptions * 48))
  let outBuf ← orFault (mem.read out (nsubscriptions * 32))
  let cleared : MemoryInstance :=
    { mem with buffer := overwrite mem.buffer out.toNat (List.replicate outBuf.length 0) }
  let mem ← orFault (cleared.writeUint32Le resultNevents nsubscriptions)
  let s ← (List.range nsubscriptions.toNat).foldlM
    (processOne host inn.toNat inBuf.length out.toNat outBuf.length)
    { mem }
  finish host out.toNat outBuf.length nsubscriptions resultNevents s

/-! ### Accesses to memory -/

theorem orFault_read (mem : GuestMemory) (offset n : UInt32) :
    orFault (mem.read offset n) =
      if offset.toNat + n.toNat ≤ mem.buffer.length then
        if offset.toNat + n.toNat = 2 ^ 32 then .error .panic
        else .ok (slice mem.buffer offset.toNat (offset.toNat + n.toNat))
      else .error (.error .EFAULT) := by
  rw [MemoryInstance.read, Wasm.MemoryInstance.readLe_eq mem.size_le]
  split
  · split
    · rfl
    · rfl
  · rfl

theorem orFault_writeUint32Le (mem : MemoryInstance) (offset v : UInt32) :
    orFault (mem.writeUint32Le offset v) =
      if offset.toNat + 4 ≤ mem.buffer.length then
        .ok { mem with buffer := overwrite mem.buffer offset.toNat (le32 v) }
      else .error (.error .EFAULT) := by
  rw [MemoryInstance.writeUint32Le, Wasm.MemoryInstance.store_eq, length_le32]
  split
  · rfl
  · rfl

/-! ### One subscription -/

/-- The type of a subscription. -/
def typeAt (inBuf : Bytes) (i : Nat) : Option UInt8 := inBuf[48 * i + 8]?

/-- The timeout of a clock. -/
def timeoutAt (inBuf : Bytes) (i : Nat) : UInt64 := u64At inBuf (48 * i + 24)

/-- The descriptor of a file. -/
def fdAt (inBuf : Bytes) (i : Nat) : UInt32 := u32At inBuf (48 * i + 16)

def userDataAt (inBuf : Bytes) (i : Nat) : Bytes := slice inBuf (48 * i) (48 * i + 8)

/-- A read is put off if its descriptor is in use, and is standard input or in blocking mode. -/
def PutOff (host : Host) (inBuf : Bytes) (i : Nat) : Prop :=
  typeAt inBuf i = some eventTypeFdRead ∧ (host.files (fdAt inBuf i).toNat).isSome ∧
    (fdAt inBuf i = 0 ∨ host.files (fdAt inBuf i).toNat = some false)

instance decidablePutOff (host : Host) (inBuf : Bytes) (i : Nat) : Decidable (PutOff host inBuf i) :=
  inferInstanceAs (Decidable (_ ∧ _ ∧ _))

/-- The error that the event of a subscription reports. -/
def errnoAt (host : Host) (inBuf : Bytes) (i : Nat) : UInt8 :=
  if typeAt inBuf i = some eventTypeClock then 0
  else if (host.files (fdAt inBuf i).toNat).isNone then errnoBadf
  else if typeAt inBuf i = some eventTypeFdWrite then errnoNotsup
  else 0

def eventAt (host : Host) (inn : Nat) (inBuf : Bytes) (i : Nat) : Event where
  eventType := (typeAt inBuf i).getD 0
  userData := inn + 48 * i
  errno := errnoAt host inBuf i

/-- The state with the timeout of a clock. -/
def State.clocked (s : State) (inBuf : Bytes) (i : Nat) : State :=
  if typeAt inBuf i = some eventTypeClock then s.limit (timeoutAt inBuf i).toInt64 else s

/-- What the `i`-th subscription does, `inBuf` being the list. -/
def advance (host : Host) (inn out : Nat) (inBuf : Bytes) (s : State) (i : Nat) : State :=
  if PutOff host inBuf i then
    { s with blockingStdinSubs := s.blockingStdinSubs ++ [eventAt host inn inBuf i] }
  else acked out (eventAt host inn inBuf i) (s.clocked inBuf i)

theorem processClockEvent_spec {inBuf : Bytes} (h : 32 ≤ inBuf.length) :
    Safe (processClockEvent inBuf) ∧
      ∀ t, processClockEvent inBuf = .ok t → t = (u64At inBuf 8).toInt64 := by
  -- the flags are read from a slice of a slice
  have hflags : 0 + 2 ≤ (slice inBuf 24 32).length := by
    rw [length_slice h]
    decide
  have heq : processClockEvent inBuf =
      if u16At (slice inBuf 24 32) 0 = 0 then .ok (u64At inBuf 8).toInt64
      else if u16At (slice inBuf 24 32) 0 = 1 then .error (.error .ENOTSUP)
      else .error (.error .EINVAL) := by
    rw [processClockEvent, uint64_eq (by omega), sub_eq (by decide) h]
    change (uint16 (slice inBuf 24 32) 0 >>= _) = _
    rw [uint16_eq hflags]
    rfl
  rw [heq]
  split
  · exact ⟨safe_ok _, fun t ht => (Except.ok.inj ht).symm⟩
  · split
    · exact ⟨safe_error _, nofun⟩
    · exact ⟨safe_error _, nofun⟩

section One

variable {host : Host} {inn n out i : Nat} {s : State}

theorem toNat_inOffset (hn : 48 * n < 2 ^ 32) (hi : i < n) :
    (UInt32.ofNat i * 48).toNat = 48 * i := by
  rw [UInt32.toNat_mul, UInt32.toNat_ofNat', Nat.mod_eq_of_lt (by omega : i < 2 ^ 32), Nat.mul_comm]
  exact Nat.mod_eq_of_lt (by change 48 * i < 2 ^ 32; omega)

theorem toNat_inOffset_add (hn : 48 * n < 2 ^ 32) (hi : i < n) {k : UInt32} (hk : k.toNat ≤ 16) :
    (UInt32.ofNat i * 48 + k).toNat = 48 * i + k.toNat := by
  rw [UInt32.toNat_add, toNat_inOffset hn hi]
  exact Nat.mod_eq_of_lt (by omega)

theorem toNat_outOffset (hn : 48 * n < 2 ^ 32) (hnevents : s.nevents.toNat < n) :
    (s.nevents * 32).toNat = 32 * s.nevents.toNat := by
  rw [UInt32.toNat_mul, Nat.mul_comm]
  exact Nat.mod_eq_of_lt (by change 32 * s.nevents.toNat < 2 ^ 32; omega)

theorem writeEvent_eq (hn : 48 * n < 2 ^ 32) (hnevents : s.nevents.toNat < n) (evt : Event) :
    writeEvent out (32 * n) evt s = .ok (acked out evt s) := by
  rw [writeEvent, toNat_outOffset hn hnevents, if_pos (by omega)]

/-- The round is safe, and advances the state. -/
def Sound (host : Host) (inn out : Nat) (inBuf : Bytes) (s : State) (i : Nat)
    (x : Except (Fault Errno) State) : Prop :=
  Safe x ∧ ∀ s', x = .ok s' → s' = advance host inn out inBuf s i

variable {inBuf : Bytes}

theorem sound_ok {s' : State} (h : s' = advance host inn out inBuf s i) :
    Sound host inn out inBuf s i (.ok s') := ⟨safe_ok _, fun _ hs => Except.ok.inj hs ▸ h⟩

theorem sound_error (e : Errno) : Sound host inn out inBuf s i (.error (.error e)) :=
  ⟨safe_error _, nofun⟩

theorem sound_bind {α : Type} {x : Except (Fault Errno) α} {f : α → Except (Fault Errno) State}
    (hx : Safe x) (hf : ∀ a, x = .ok a → Sound host inn out inBuf s i (f a)) :
    Sound host inn out inBuf s i (x >>= f) := by
  match x, hx, hf with
  | .ok a, _, hf => exact hf a rfl
  | .error (.error e), _, _ => exact sound_error e
  | .error .panic, hx, _ => exact absurd rfl hx

/-- A subscription of this type is acknowledged with this error. -/
theorem sound_acked {eventType errno : UInt8} {s₁ : State} (htype : typeAt inBuf i = some eventType)
    (hno : ¬ PutOff host inBuf i) (herrno : errnoAt host inBuf i = errno)
    (hclocked : s.clocked inBuf i = s₁) :
    Sound host inn out inBuf s i (.ok (acked out ⟨eventType, inn + 48 * i, errno⟩ s₁)) := by
  refine sound_ok ?_
  rw [advance, if_neg hno, hclocked, eventAt, htype, herrno]
  rfl

theorem processOne_sound (hn : 48 * n < 2 ^ 32) (hi : i < n)
    (hin : inn + 48 * n ≤ s.mem.buffer.length) (hnevents : s.nevents.toNat ≤ i) :
    Sound host inn out (slice s.mem.buffer inn (inn + 48 * n)) s i
      (processOne host inn (48 * n) out (32 * n) s i) := by
  -- every offset of the subscription is far below `2 ^ 32`, so that the numbers of 32 bits do not
  -- wrap
  have hlt : s.nevents.toNat < n := by omega
  have hlen : (slice s.mem.buffer inn (inn + 48 * n)).length = 48 * n := by
    rw [length_slice hin, Nat.add_sub_cancel_left]
  have hadd : UInt32.ofNat i * 48 + 8 + 8 = UInt32.ofNat i * 48 + 16 := UInt32.add_assoc _ _ _
  have h8 : (UInt32.ofNat i * 48 + 8).toNat = 48 * i + 8 := toNat_inOffset_add hn hi (by decide)
  have h16 : (UInt32.ofNat i * 48 + 16).toNat = 48 * i + 16 :=
    toNat_inOffset_add hn hi (by decide)
  rw [processOne, hadd, h8, h16, toNat_inOffset hn hi]
  -- from here on only the length of the input matters
  generalize slice s.mem.buffer inn (inn + 48 * n) = inBuf at hlen ⊢
  obtain ⟨x, hx⟩ : ∃ x, typeAt inBuf i = some x := ⟨_, List.getElem?_eq_getElem (by omega)⟩
  rw [show inBuf[48 * i + 8]? = some x from hx]
  refine sound_bind (safe_sub (by omega) le_rfl) fun argBuf hargs => ?_
  have hargsLen := length_of_sub_eq_ok hargs
  have hslice : slice inBuf (48 * i + 16) inBuf.length = argBuf := by
    rw [sub_eq (by omega) le_rfl] at hargs
    exact Except.ok.inj hargs
  refine sound_bind (safe_sub (by omega) (by omega)) fun _ _ => ?_
  have hwrite (evt : Event) (t : State) (ht : t.nevents = s.nevents) := @writeEvent_eq n out t hn
    (ht ▸ hlt) evt
  have hfd (fd : UInt32) (h : (uint32 argBuf 0 : Except (Fault Errno) UInt32) = .ok fd) :
      fdAt inBuf i = fd := by
    rw [uint32_eq (by omega), ← hslice, u32At_slice (by omega)] at h
    exact Except.ok.inj h
  dsimp only
  split
  · next hclock =>
    rw [hclock] at hx
    obtain ⟨hsafe, htimeout⟩ := @processClockEvent_spec argBuf (by omega)
    refine sound_bind hsafe fun t ht => ?_
    have ht' : t = (timeoutAt inBuf i).toInt64 := by
      rw [htimeout t ht, ← hslice, u64At_slice (by omega), timeoutAt]
    rw [hwrite _ (s.limit t) rfl, hclock]
    refine sound_acked hx (fun h => ?_) (if_pos hx) (by rw [State.clocked, if_pos hx, ht'])
    cases hx.symm.trans h.1
  · next hclock =>
    have hne : typeAt inBuf i ≠ some eventTypeClock := hx ▸ fun h => hclock (Option.some.inj h)
    have hclocked : s.clocked inBuf i = s := if_neg hne
    split
    · next hread =>
      rw [hread] at hx
      have hnot : typeAt inBuf i ≠ some eventTypeFdWrite := by
        rw [hx]
        decide
      refine sound_bind (safe_uint32 (by omega)) fun fd h => ?_
      obtain rfl := hfd fd h
      split
      · exact sound_error _
      · split
        · next hfile =>
          rw [hwrite _ s rfl, hread]
          refine sound_acked hx (fun h => ?_) ?_ hclocked
          · rw [PutOff, hfile] at h
            cases h.2.1
          · rw [errnoAt, if_neg hne, hfile]
            rfl
        · next nonblock hfile =>
          have herrno : errnoAt host inBuf i = 0 := by
            rw [errnoAt, if_neg hne, hfile, if_neg (by rintro ⟨⟩), if_neg hnot]
          split
          · next hnonblock =>
            rw [hwrite _ s rfl, hread]
            refine sound_acked hx (fun h => ?_) herrno hclocked
            rcases h.2.2 with hzero | hblock
            · exact hnonblock.1 hzero
            · rw [hfile] at hblock
              exact absurd hnonblock.2 (by rw [Option.some.inj hblock]; decide)
          · next hblock =>
            refine sound_ok ?_
            rw [advance, if_pos, eventAt, hx, herrno, hread]
            · rfl
            · refine ⟨hx, by rw [hfile]; rfl, ?_⟩
              rw [hfile]
              by_cases hzero : fdAt inBuf i = 0
              · exact .inl hzero
              · exact .inr (congrArg some (Bool.eq_false_iff.mpr fun h => hblock ⟨hzero, h⟩))
    · next hread =>
      split
      · next hwriting =>
        rw [hwriting] at hx
        refine sound_bind (safe_uint32 (by omega)) fun fd h => ?_
        obtain rfl := hfd fd h
        split
        · exact sound_error _
        · rw [hwrite _ s rfl, hwriting]
          refine sound_acked hx (fun h => ?_) ?_ hclocked
          · cases hx.symm.trans h.1
          · rw [errnoAt, if_neg hne, if_pos hx]
            cases host.files (fdAt inBuf i).toNat <;> rfl
      · exact sound_error _

end One

/-! ### The loop -/

/-- After `i` subscriptions, in a memory of `size` bytes. -/
structure Within (size i : Nat) (s : State) : Prop where
  length_eq : s.mem.buffer.length = size
  count_eq : s.nevents.toNat + s.blockingStdinSubs.length = i
  userData_le : ∀ evt ∈ s.blockingStdinSubs, evt.userData + 8 ≤ size

section Loop

variable {host : Host} {inn n out i size : Nat} {s s' : State} {evt : Event}

theorem length_eventBytes (h : evt.userData + 8 ≤ s.mem.buffer.length) :
    (eventBytes s.mem evt).length = 14 := by
  rw [eventBytes, List.length_append, List.length_append, length_slice h, length_le32]
  simp

theorem toNat_nevents_acked (hn : 48 * n < 2 ^ 32) (hlt : s.nevents.toNat < n) :
    (acked out evt s).nevents.toNat = s.nevents.toNat + 1 := by
  change (s.nevents + 1).toNat = _
  rw [UInt32.toNat_add]
  exact Nat.mod_eq_of_lt (by change s.nevents.toNat + 1 < 2 ^ 32; omega)

/-- The record stands inside the output. -/
theorem record_le (hn : 48 * n < 2 ^ 32) (hlt : s.nevents.toNat < n)
    (hdata : evt.userData + 8 ≤ s.mem.buffer.length) :
    out + (s.nevents * 32).toNat + (eventBytes s.mem evt).length ≤ out + 32 * n := by
  rw [toNat_outOffset hn hlt, length_eventBytes hdata]
  omega

theorem length_acked (hn : 48 * n < 2 ^ 32) (hout : out + 32 * n ≤ s.mem.buffer.length)
    (hlt : s.nevents.toNat < n) (hdata : evt.userData + 8 ≤ s.mem.buffer.length) :
    (acked out evt s).mem.buffer.length = s.mem.buffer.length :=
  length_overwrite ((record_le hn hlt hdata).trans hout)

theorem Within.acked (h : Within size i s) (hn : 48 * n < 2 ^ 32) (hi : i < n)
    (hout : out + 32 * n ≤ size) (hdata : evt.userData + 8 ≤ size) :
    Within size (i + 1) (acked out evt s) := by
  have hlt : s.nevents.toNat < n := by have := h.count_eq; omega
  refine ⟨?_, ?_, h.userData_le⟩
  · rw [length_acked hn (h.length_eq ▸ hout) hlt (h.length_eq ▸ hdata), h.length_eq]
  · rw [toNat_nevents_acked hn hlt, Nat.add_right_comm]
    exact congrArg (· + 1) h.count_eq

theorem Within.advance (h : Within size i s) (hn : 48 * n < 2 ^ 32) (hi : i < n)
    (hin : inn + 48 * n ≤ size) (hout : out + 32 * n ≤ size) (inBuf : Bytes) :
    Within size (i + 1) (advance host inn out inBuf s i) := by
  have hdata : (eventAt host inn inBuf i).userData + 8 ≤ size := by
    change inn + 48 * i + 8 ≤ size
    omega
  rw [Poll.advance]
  split
  · refine ⟨h.length_eq, ?_, fun e he => ?_⟩
    · rw [List.length_append, List.length_singleton, ← Nat.add_assoc, h.count_eq]
    · rcases List.mem_append.mp he with he | he
      · exact h.userData_le e he
      · rw [List.mem_singleton.mp he]
        exact hdata
  · -- the timeout is none of what the clauses are about
    have hclocked : Within size i (s.clocked inBuf i) := by
      rw [State.clocked]
      split
      · exact ⟨h.length_eq, h.count_eq, h.userData_le⟩
      · exact h
    exact hclocked.acked hn hi hout hdata

/-- The loop over subscriptions that are in memory does not panic. -/
theorem loop_within (hn : 48 * n < 2 ^ 32) (hin : inn + 48 * n ≤ size) (hout : out + 32 * n ≤ size)
    (h : Within size 0 s) :
    Safe ((List.range n).foldlM (processOne host inn (48 * n) out (32 * n)) s) ∧
      ∀ s', (List.range n).foldlM (processOne host inn (48 * n) out (32 * n)) s = .ok s' →
        Within size n s' := by
  refine foldlM_range (Within size) h fun i s hi hs => ?_
  have hcount := hs.count_eq
  obtain ⟨hsafe, hadvances⟩ := @processOne_sound host inn n out i s hn hi
    (hs.length_eq ▸ hin) (by omega)
  exact ⟨hsafe, fun s' hs' => hadvances s' hs' ▸ hs.advance hn hi hin hout _⟩

/-! ### The records -/

/-- The list of subscriptions and the output are in memory, and apart. -/
structure Layout (inn n out size : Nat) : Prop where
  fits : 48 * n < 2 ^ 32
  input_le : inn + 48 * n ≤ size
  output_le : out + 32 * n ≤ size
  disjoint : inn + 48 * n ≤ out ∨ out + 32 * n ≤ inn

/-- The bytes of the record of a subscription. -/
def recordAt (host : Host) (inBuf : Bytes) (i : Nat) : Bytes :=
  userDataAt inBuf i ++ [errnoAt host inBuf i, 0] ++ le32 ((typeAt inBuf i).getD 0).toUInt32

/-- The records of some subscriptions, one behind the other. -/
def recordsOf (host : Host) (inBuf : Bytes) (is : List Nat) : List Record :=
  is.mapIdx fun k i => ⟨32 * k, recordAt host inBuf i⟩

/-- The memory with the records written over it. -/
def laid (out : Nat) (base : Bytes) (records : List Record) : Bytes :=
  records.foldl (fun buffer r => overwrite buffer (out + r.offset) r.bytes) base

theorem eventBytes_eventAt {inBuf : Bytes} (hi : i < n)
    (hinput : slice s.mem.buffer inn (inn + 48 * n) = inBuf) :
    eventBytes s.mem (eventAt host inn inBuf i) = recordAt host inBuf i := by
  rw [eventBytes, recordAt, userDataAt, eventAt, ← hinput, slice_slice (by omega), Nat.add_assoc]

theorem recordsOf_concat (host : Host) (inBuf : Bytes) (is : List Nat) (i : Nat) :
    recordsOf host inBuf (is ++ [i]) =
      recordsOf host inBuf is ++ [⟨32 * is.length, recordAt host inBuf i⟩] := List.mapIdx_concat

theorem laid_concat (out : Nat) (base : Bytes) (records : List Record) (r : Record) :
    laid out base (records ++ [r]) = overwrite (laid out base records) (out + r.offset) r.bytes :=
  List.foldl_append

/-- A record leaves the subscriptions alone when the output does not overlap them. -/
theorem input_acked (hn : 48 * n < 2 ^ 32) (hlt : s.nevents.toNat < n)
    (hout : out + 32 * n ≤ s.mem.buffer.length)
    (hdisjoint : inn + 48 * n ≤ out ∨ out + 32 * n ≤ inn)
    (hdata : evt.userData + 8 ≤ s.mem.buffer.length) :
    slice (acked out evt s).mem.buffer inn (inn + 48 * n) =
      slice s.mem.buffer inn (inn + 48 * n) := by
  have hle := @record_le n out s evt hn hlt hdata
  exact slice_overwrite_of_disjoint (hle.trans hout) (by omega)

/-- The state with all events that were put off acknowledged. -/
def ackedAll (out : Nat) (evts : List Event) (s : State) : State :=
  evts.foldl (fun s evt => acked out { evt with errno := 0 } s) s

theorem writeEvents_eq (hn : 48 * n < 2 ^ 32) {evts : List Event}
    (hle : s.nevents.toNat + evts.length ≤ n) :
    evts.foldlM (fun s evt => writeEvent out (32 * n) { evt with errno := 0 } s) s =
      .ok (ackedAll out evts s) := by
  induction evts generalizing s with
  | nil => rfl
  | cons evt evts ih =>
    rw [List.length_cons] at hle
    rw [List.foldlM_cons, writeEvent_eq hn (by omega)]
    exact ih (by rw [toNat_nevents_acked hn (by omega)]; omega)

theorem waited_ackedAll (evts : List Event) : (ackedAll out evts s).waited = s.waited := by
  induction evts generalizing s with
  | nil => rfl
  | cons evt evts ih => exact ih

/-- The subscriptions `is` were acknowledged, and nothing else was written over `base`. -/
structure Acknowledged (host : Host) (inn n out size : Nat) (inBuf base : Bytes) (is : List Nat)
    (s : State) : Prop where
  length_eq : s.mem.buffer.length = size
  input : slice s.mem.buffer inn (inn + 48 * n) = inBuf
  nevents_eq : s.nevents.toNat = is.length
  records_eq : s.records = recordsOf host inBuf is
  memory_eq : s.mem.buffer = laid out base (recordsOf host inBuf is)

section Acknowledged

variable {inBuf base : Bytes} {is ds : List Nat}

theorem Acknowledged.acked (h : Acknowledged host inn n out size inBuf base is s)
    (hlayout : Layout inn n out size) (hlt : is.length < n) (hi : i < n) :
    Acknowledged host inn n out size inBuf base (is ++ [i])
      (acked out (eventAt host inn inBuf i) s) := by
  have hn := hlayout.fits
  have hout : out + 32 * n ≤ s.mem.buffer.length := h.length_eq ▸ hlayout.output_le
  have hnevents : s.nevents.toNat < n := h.nevents_eq ▸ hlt
  have hdata : (eventAt host inn inBuf i).userData + 8 ≤ s.mem.buffer.length := by
    have hin := hlayout.input_le
    rw [h.length_eq]
    change inn + 48 * i + 8 ≤ size
    omega
  have hrecord : (⟨(s.nevents * 32).toNat, eventBytes s.mem (eventAt host inn inBuf i)⟩ : Record) =
      ⟨32 * is.length, recordAt host inBuf i⟩ := by
    rw [toNat_outOffset hn hnevents, h.nevents_eq, eventBytes_eventAt hi h.input]
  refine ⟨?_, ?_, ?_, ?_, ?_⟩
  · rw [length_acked hn hout hnevents hdata, h.length_eq]
  · rw [input_acked hn hnevents hout hlayout.disjoint hdata, h.input]
  · rw [toNat_nevents_acked hn hnevents, h.nevents_eq, List.length_append, List.length_singleton]
  · change s.records ++ [_] = _
    rw [hrecord, recordsOf_concat, h.records_eq]
  · rw [recordsOf_concat, laid_concat, ← h.memory_eq, ← hrecord]
    rfl

/-- An event that was put off has no error. -/
theorem eventAt_of_putOff (h : PutOff host inBuf i) :
    { eventAt host inn inBuf i with errno := 0 } = eventAt host inn inBuf i := by
  obtain ⟨nonblock, hfile⟩ := Option.isSome_iff_exists.mp h.2.1
  have herrno : errnoAt host inBuf i = 0 := by
    rw [errnoAt, h.1, hfile]
    rfl
  rw [eventAt, herrno]

theorem Acknowledged.ackedAll (h : Acknowledged host inn n out size inBuf base is s)
    (hlayout : Layout inn n out size) (hds : ∀ i ∈ ds, i < n ∧ PutOff host inBuf i)
    (hle : is.length + ds.length ≤ n) :
    Acknowledged host inn n out size inBuf base (is ++ ds)
      (ackedAll out (ds.map (eventAt host inn inBuf)) s) := by
  induction ds generalizing s is with
  | nil => rwa [List.append_nil]
  | cons i ds ih =>
    rw [List.length_cons] at hle
    obtain ⟨⟨hi, hputOff⟩, hds⟩ := List.forall_mem_cons.mp hds
    have hall := ih (h.acked hlayout (by omega) hi) hds
      (by rw [List.length_append, List.length_singleton]; omega)
    rw [List.append_assoc] at hall
    rw [List.map_cons, Poll.ackedAll, List.foldl_cons, eventAt_of_putOff hputOff]
    exact hall

end Acknowledged

end Loop

/-! ### The timeouts -/

/-- The timeouts of the clocks among the first `i` subscriptions. -/
def clocks (inBuf : Bytes) (i : Nat) : List UInt64 :=
  ((List.range i).filter fun k => typeAt inBuf k = some eventTypeClock).map (timeoutAt inBuf)

/-- The shortest timeout, as the loop computes it. -/
def soonest (ts : List UInt64) : Int64 :=
  ts.foldl (fun timeout t => if t.toInt64 < timeout then t.toInt64 else timeout) Int64.maxValue

theorem clocks_succ_of_clock {inBuf : Bytes} {i : Nat} (h : typeAt inBuf i = some eventTypeClock) :
    clocks inBuf (i + 1) = clocks inBuf i ++ [timeoutAt inBuf i] := by
  rw [clocks, List.range_succ, List.filter_append, List.map_append,
    List.filter_cons_of_pos (by simpa using h)]
  rfl

theorem clocks_succ_of_file {inBuf : Bytes} {i : Nat} (h : typeAt inBuf i ≠ some eventTypeClock) :
    clocks inBuf (i + 1) = clocks inBuf i := by
  rw [clocks, List.range_succ, List.filter_append, List.map_append,
    List.filter_cons_of_neg (by simpa using h)]
  exact List.append_nil _

/-- The subscriptions among the first `i` that are acknowledged in the loop. -/
def atOnce (host : Host) (inBuf : Bytes) (i : Nat) : List Nat :=
  (List.range i).filter fun k => ¬ PutOff host inBuf k

/-- Those that are put off. -/
def later (host : Host) (inBuf : Bytes) (i : Nat) : List Nat :=
  (List.range i).filter fun k => PutOff host inBuf k

/-- After `i` subscriptions, `inBuf` being what the loop finds in memory. -/
structure Progress (host : Host) (inn n out size : Nat) (inBuf base : Bytes) (i : Nat)
    (s : State) : Prop
    extends Acknowledged host inn n out size inBuf base (atOnce host inBuf i) s where
  later_eq : s.blockingStdinSubs = (later host inBuf i).map (eventAt host inn inBuf)
  waited_eq : s.waited = none
  timeout_eq : s.timeout = soonest (clocks inBuf i)

section Progress

variable {host : Host} {inn n out i size : Nat} {s s' : State} {inBuf base : Bytes}

theorem atOnce_perm (host : Host) (inBuf : Bytes) (i : Nat) :
    (atOnce host inBuf i ++ later host inBuf i).Perm (List.range i) := by
  refine (List.perm_append_comm).trans ?_
  simpa only [atOnce, later, decide_not] using
    List.filter_append_perm (fun k => decide (PutOff host inBuf k)) (List.range i)

theorem length_atOnce_add (host : Host) (inBuf : Bytes) (i : Nat) :
    (atOnce host inBuf i).length + (later host inBuf i).length = i := by
  rw [← List.length_append, (atOnce_perm host inBuf i).length_eq, List.length_range]

theorem Progress.advance (h : Progress host inn n out size inBuf base i s)
    (hlayout : Layout inn n out size) (hi : i < n) :
    Progress host inn n out size inBuf base (i + 1) (advance host inn out inBuf s i) := by
  have hlength := length_atOnce_add host inBuf i
  rw [Poll.advance]
  by_cases hputOff : PutOff host inBuf i
  · -- the subscription is put off, and is no clock
    have hclock : typeAt inBuf i ≠ some eventTypeClock := by
      rw [hputOff.1]
      decide
    have honce : atOnce host inBuf (i + 1) = atOnce host inBuf i := by
      simp [atOnce, List.range_succ, hputOff]
    have hlater : later host inBuf (i + 1) = later host inBuf i ++ [i] := by
      simp [later, List.range_succ, hputOff]
    rw [if_pos hputOff]
    refine ⟨⟨h.length_eq, h.input, ?_, ?_, ?_⟩, ?_, h.waited_eq, ?_⟩
    · rw [honce]
      exact h.nevents_eq
    · rw [honce]
      exact h.records_eq
    · rw [honce]
      exact h.memory_eq
    · rw [hlater, List.map_append, ← h.later_eq]
      rfl
    · rw [clocks_succ_of_file hclock]
      exact h.timeout_eq
  · have honce : atOnce host inBuf (i + 1) = atOnce host inBuf i ++ [i] := by
      simp [atOnce, List.range_succ, hputOff]
    have hlater : later host inBuf (i + 1) = later host inBuf i := by
      simp [later, List.range_succ, hputOff]
    rw [if_neg hputOff]
    -- the timeout is cut down first, which changes nothing else
    have hclocked : Acknowledged host inn n out size inBuf base (atOnce host inBuf i)
        (s.clocked inBuf i) ∧ (s.clocked inBuf i).blockingStdinSubs = s.blockingStdinSubs ∧
        (s.clocked inBuf i).waited = none ∧
        (s.clocked inBuf i).timeout = soonest (clocks inBuf (i + 1)) := by
      rw [State.clocked]
      split
      · next hclock =>
        refine ⟨⟨h.length_eq, h.input, h.nevents_eq, h.records_eq, h.memory_eq⟩, rfl, h.waited_eq, ?_⟩
        rw [clocks_succ_of_clock hclock, soonest, List.foldl_append, ← soonest, ← h.timeout_eq]
        rfl
      · next hclock =>
        refine ⟨h.toAcknowledged, rfl, h.waited_eq, ?_⟩
        rw [clocks_succ_of_file hclock, h.timeout_eq]
    obtain ⟨hacknowledged, hsubs, hwaited, htimeout⟩ := hclocked
    refine ⟨honce ▸ hacknowledged.acked hlayout (by omega) hi, ?_, hwaited, htimeout⟩
    rw [hlater, ← h.later_eq]
    exact hsubs

/-- The whole loop. -/
theorem loop_progress (hlayout : Layout inn n out size)
    (h : Progress host inn n out size inBuf base 0 s)
    (hs : (List.range n).foldlM (processOne host inn (48 * n) out (32 * n)) s = .ok s') :
    Progress host inn n out size inBuf base n s' := by
  refine (foldlM_range (Progress host inn n out size inBuf base) h fun i s hi hs => ?_).2 s' hs
  have hlength := length_atOnce_add host inBuf i
  have hnevents := hs.nevents_eq
  obtain ⟨hsafe, hadvances⟩ := @processOne_sound host inn n out i s hlayout.fits hi
    (hs.length_eq ▸ hlayout.input_le) (by omega)
  refine ⟨hsafe, fun s' hs' => ?_⟩
  rw [hadvances s' hs', hs.input]
  exact hs.advance hlayout hi

/-- Standard input has something to read within the timeout. -/
def Ready (host : Host) (inBuf : Bytes) (n : Nat) : Prop :=
  host.pollStdin (soonest (clocks inBuf n) / 1000000).toInt32 = .ok true

/-- **What follows the loop.** If nothing was put off, then the call sleeps. Otherwise it lets
standard input wait; if that is ready, the rest is acknowledged, and if not, the number of events is
stored once more. -/
theorem finish_spec {nsubscriptions resultNevents : UInt32} (hnsub : nsubscriptions.toNat = n)
    (h : Progress host inn n out size inBuf base n s) (hlayout : Layout inn n out size)
    (hs : finish host out (32 * n) nsubscriptions resultNevents s = .ok s') :
    let T := soonest (clocks inBuf n)
    (later host inBuf n = [] ∧ s'.waited = none ∧ (s'.slept = if 0 < T then some T else none) ∧
      Acknowledged host inn n out size inBuf base (atOnce host inBuf n ++ later host inBuf n) s') ∨
    later host inBuf n ≠ [] ∧ s'.waited = some (T / 1000000).toInt32 ∧
      ((Ready host inBuf n ∧ Acknowledged host inn n out size inBuf base
        (atOnce host inBuf n ++ later host inBuf n) s') ∨
      ¬ Ready host inBuf n ∧ s'.records = recordsOf host inBuf (atOnce host inBuf n) ∧
        s'.mem.buffer = overwrite (laid out base (recordsOf host inBuf (atOnce host inBuf n)))
          resultNevents.toNat (le32 (UInt32.ofNat (atOnce host inBuf n).length))) := by
  intro T
  have hlength := length_atOnce_add host inBuf n
  have hnevents := h.nevents_eq
  have hsubs : s.blockingStdinSubs.length = (later host inBuf n).length := by
    rw [h.later_eq, List.length_map]
  -- all is acknowledged if and only if nothing was put off
  have hall : s.nevents = nsubscriptions ↔ later host inBuf n = [] := by
    rw [← UInt32.toNat_inj, ← List.length_eq_zero_iff]
    omega
  rw [finish, h.timeout_eq] at hs
  split at hs
  · next heq =>
    have hnil := hall.mp heq
    cases hs
    refine .inl ⟨hnil, h.waited_eq, rfl, ?_⟩
    rw [hnil, List.append_nil]
    exact ⟨h.length_eq, h.input, h.nevents_eq, h.records_eq, h.memory_eq⟩
  next hne =>
  refine .inr ⟨fun hnil => hne (hall.mpr hnil), ?_⟩
  split at hs
  · cases hs
  split at hs
  · cases hs
  next stdinReady hpoll =>
  have hwaited : s.polled.waited = some (T / 1000000).toInt32 := by
    change some (s.timeout / 1000000).toInt32 = _
    rw [h.timeout_eq]
  split at hs
  · -- standard input is ready: all events are acknowledged
    next hready =>
    rw [writeEvents_eq (s := s.polled) hlayout.fits (show s.nevents.toNat + _ ≤ n by omega)] at hs
    have hpolled : Acknowledged host inn n out size inBuf base (atOnce host inBuf n) s.polled :=
      ⟨h.length_eq, h.input, h.nevents_eq, h.records_eq, h.memory_eq⟩
    have hacked := hpolled.ackedAll hlayout (fun i hi => by
      rw [later, List.mem_filter, List.mem_range, decide_eq_true_eq] at hi
      exact hi) hlength.le
    rw [← h.later_eq] at hacked
    change storeCount nsubscriptions resultNevents (ackedAll out s.blockingStdinSubs s.polled) =
      .ok s' at hs
    have hfull : (ackedAll out s.blockingStdinSubs s.polled).nevents = nsubscriptions := by
      refine UInt32.toNat.inj ?_
      rw [hacked.nevents_eq, List.length_append]
      omega
    rw [storeCount, if_pos hfull] at hs
    cases hs
    exact ⟨(waited_ackedAll _).trans hwaited, .inl ⟨by rw [Ready, hpoll, hready], hacked⟩⟩
  · -- it is not: the count is stored once more
    next hready =>
    rw [storeCount, if_neg (show ¬ s.polled.nevents = nsubscriptions from hne),
      orFault_writeUint32Le] at hs
    split at hs
    swap
    · cases hs
    cases hs
    refine ⟨hwaited, .inr ⟨fun h => ?_, h.records_eq, ?_⟩⟩
    · rw [Ready, hpoll] at h
      exact hready (Except.ok.inj h)
    · change overwrite s.mem.buffer resultNevents.toNat (le32 s.nevents) = _
      rw [h.memory_eq, ← hnevents, UInt32.ofNat_toNat]

end Progress

/-! ### The memory at the end -/

/-- What is expected of the memory at the end: the number stored at `result` is that of the records
that were written, these follow each other from `out` on, each was written with the user data of
another subscription, and each still has it. -/
structure Reported (inBuf : Bytes) (n out result : Nat) (s : State) : Prop where
  count : (u32At s.mem.buffer result).toNat = s.records.length
  contiguous : s.records.map Record.offset = (List.range s.records.length).map (32 * ·)
  userData : ∃ is : List Nat, is.Nodup ∧ (∀ i ∈ is, i < n) ∧
    s.records.map (fun r => r.bytes.take 8) = is.map (userDataAt inBuf)
  kept : ∀ r ∈ s.records, slice s.mem.buffer (out + r.offset) (out + r.offset + 8) = r.bytes.take 8

/-- Two pieces of memory have the same bytes where they overlap. -/
def Agree (a : Nat) (x : Bytes) (b : Nat) (y : Bytes) : Prop :=
  ∀ i j, i < x.length → j < y.length → a + i = b + j → x[i]? = y[j]?

/-- The number of events and the records do not disturb each other. If all subscriptions are
acknowledged, then the records are written over the number; if not, then the number is written over
the records. -/
structure Undisturbed (host : Host) (inBuf : Bytes) (n out result : Nat) : Prop where
  full : later host inBuf n = [] ∨ Ready host inBuf n → ∀ k i,
    (atOnce host inBuf n ++ later host inBuf n)[k]? = some i →
      Agree (out + 32 * k) (recordAt host inBuf i) result (le32 (UInt32.ofNat n))
  part : later host inBuf n ≠ [] → ¬ Ready host inBuf n → ∀ k i,
    (atOnce host inBuf n)[k]? = some i → Agree (out + 32 * k) (userDataAt inBuf i) result
      (le32 (UInt32.ofNat (atOnce host inBuf n).length))

section Memory

variable {host : Host} {inn n out result size i : Nat} {inBuf base : Bytes} {is : List Nat}
  {s : State}

theorem length_userDataAt (hlen : inBuf.length = 48 * n) (hi : i < n) :
    (userDataAt inBuf i).length = 8 := by
  rw [userDataAt, length_slice (by omega)]
  omega

theorem length_recordAt (hlen : inBuf.length = 48 * n) (hi : i < n) :
    (recordAt host inBuf i).length = 14 := by
  rw [recordAt, List.length_append, List.length_append, length_userDataAt hlen hi, length_le32]
  rfl

theorem take_recordAt (hlen : inBuf.length = 48 * n) (hi : i < n) :
    (recordAt host inBuf i).take 8 = userDataAt inBuf i := by
  rw [recordAt, List.append_assoc, List.take_left' (length_userDataAt hlen hi)]

/-- The bytes of the memory with the records: those of a record inside of it, the old ones outside
of all. -/
theorem laid_spec (hlen : ∀ i ∈ is, (recordAt host inBuf i).length = 14)
    (hout : out + 32 * is.length ≤ base.length) :
    (laid out base (recordsOf host inBuf is)).length = base.length ∧
      (∀ k i, is[k]? = some i → ∀ r < 14,
        (laid out base (recordsOf host inBuf is))[out + 32 * k + r]? = (recordAt host inBuf i)[r]?) ∧
      ∀ p, (∀ k < is.length, ∀ r < 14, p ≠ out + 32 * k + r) →
        (laid out base (recordsOf host inBuf is))[p]? = base[p]? := by
  induction is using List.reverseRecOn with
  | nil => exact ⟨rfl, nofun, fun _ _ => rfl⟩
  | append_singleton is i ih =>
    rw [List.length_append, List.length_singleton] at hout ⊢
    obtain ⟨hlength, hinside, houtside⟩ :=
      ih (fun j hj => hlen j (List.mem_append_left _ hj)) (by omega)
    have hi := hlen i (List.mem_append_right _ List.mem_cons_self)
    have hfit : out + 32 * is.length + (recordAt host inBuf i).length ≤
        (laid out base (recordsOf host inBuf is)).length := by
      rw [hi, hlength]
      omega
    rw [recordsOf_concat, laid_concat]
    refine ⟨(length_overwrite hfit).trans hlength, fun k j hk r hr => ?_, fun p hp => ?_⟩
    · rw [getElem?_overwrite hfit, hi]
      rcases Nat.lt_or_ge k is.length with hlt | hge
      · -- an older record, in front
        rw [if_neg (by omega)]
        rw [List.getElem?_append_left hlt] at hk
        exact hinside k j hk r hr
      · rw [List.getElem?_append_right hge] at hk
        obtain ⟨hzero, hj⟩ := List.getElem?_eq_some_iff.mp hk
        rw [List.length_singleton] at hzero
        obtain rfl : k = is.length := by omega
        rw [List.getElem_singleton] at hj
        rw [if_pos (by omega), Nat.add_sub_cancel_left, hj]
    · have hnot := hp is.length (by omega)
      rw [getElem?_overwrite hfit, hi, if_neg]
      · exact houtside p fun k hk => hp k (by omega)
      · rintro ⟨hge, hlt⟩
        exact hnot (p - (out + 32 * is.length)) (by omega) (by omega)

theorem reported_iff (hrecords : s.records = recordsOf host inBuf is) (hnodup : is.Nodup)
    (hlt : ∀ i ∈ is, i < n) (hlen : inBuf.length = 48 * n) :
    Reported inBuf n out result s ↔ (u32At s.mem.buffer result).toNat = is.length ∧
      ∀ k i, is[k]? = some i →
        slice s.mem.buffer (out + 32 * k) (out + 32 * k + 8) = userDataAt inBuf i := by
  have hlength : s.records.length = is.length := by rw [hrecords, recordsOf, List.length_mapIdx]
  have htake (k i : Nat) (hk : is[k]? = some i) :
      (recordAt host inBuf i).take 8 = userDataAt inBuf i :=
    take_recordAt hlen (hlt i (List.mem_of_getElem? hk))
  constructor
  · intro h
    refine ⟨h.count.trans hlength, fun k i hk => ?_⟩
    obtain ⟨hk', rfl⟩ := List.getElem?_eq_some_iff.mp hk
    have hmem : (⟨32 * k, recordAt host inBuf is[k]⟩ : Record) ∈ s.records := by
      rw [hrecords]
      exact List.mem_mapIdx.mpr ⟨k, hk', rfl⟩
    exact (h.kept _ hmem).trans (htake k _ hk)
  · rintro ⟨hcount, hkept⟩
    refine ⟨hcount.trans hlength.symm, ?_, ⟨is, hnodup, hlt, ?_⟩, fun r hr => ?_⟩
    · refine List.ext_getElem? fun k => ?_
      rw [hlength, hrecords, recordsOf, List.getElem?_map, List.getElem?_map, List.getElem?_mapIdx]
      rcases Nat.lt_or_ge k is.length with hk | hk
      · rw [List.getElem?_eq_getElem hk, List.getElem?_range hk]
        rfl
      · rw [List.getElem?_eq_none hk, List.getElem?_eq_none (by rwa [List.length_range])]
        rfl
    · refine List.ext_getElem? fun k => ?_
      rw [hrecords, recordsOf, List.getElem?_map, List.getElem?_map, List.getElem?_mapIdx]
      rcases hk : is[k]? with _ | i
      · rfl
      · exact congrArg some (htake k i hk)
    · rw [hrecords] at hr
      obtain ⟨k, hk, rfl⟩ := List.mem_mapIdx.mp hr
      have hsome := List.getElem?_eq_getElem hk
      exact (hkept k _ hsome).trans (htake k _ hsome).symm

variable (hlayout : Layout inn n out size) (hbase : base.length = size)
  (hlen : inBuf.length = 48 * n) (hresult : result + 4 ≤ size)
include hlayout hbase hlen hresult

/-- The records are written over the number of all subscriptions. -/
theorem reported_full (h : Acknowledged host inn n out size inBuf base is s)
    (hperm : is.Perm (List.range n))
    (hcount : slice base result (result + 4) = le32 (UInt32.ofNat n)) :
    Reported inBuf n out result s ↔ ∀ k i, is[k]? = some i →
      Agree (out + 32 * k) (recordAt host inBuf i) result (le32 (UInt32.ofNat n)) := by
  have hlt : ∀ i ∈ is, i < n := fun i hi => List.mem_range.mp (hperm.mem_iff.mp hi)
  have hn : is.length = n := hperm.length_eq.trans List.length_range
  have hfits := hlayout.fits
  have hout := hlayout.output_le
  have hrecord : ∀ i ∈ is, (recordAt host inBuf i).length = 14 :=
    fun i hi => length_recordAt hlen (hlt i hi)
  obtain ⟨-, hinside, houtside⟩ := laid_spec hrecord (hn.symm ▸ hbase.symm ▸ hout)
  rw [← h.memory_eq] at hinside houtside
  -- the records are as they were written
  have hkept (k i : Nat) (hk : is[k]? = some i) :
      slice s.mem.buffer (out + 32 * k) (out + 32 * k + 8) = userDataAt inBuf i := by
    obtain ⟨hk', -⟩ := List.getElem?_eq_some_iff.mp hk
    have hi := hlt i (List.mem_of_getElem? hk)
    have hdata := @length_userDataAt n i inBuf hlen hi
    rw [← hdata, slice_eq_iff, hdata]
    intro r hr
    rw [hinside k i hk r (by omega), ← @take_recordAt host n i inBuf hlen hi, List.getElem?_take,
      if_pos hr]
  -- the number of all subscriptions
  have hnumber : (u32At s.mem.buffer result).toNat = is.length ↔
      ∀ j < 4, s.mem.buffer[result + j]? = (le32 (UInt32.ofNat n))[j]? := by
    have htoNat : (UInt32.ofNat n).toNat = is.length := by
      rw [UInt32.toNat_ofNat_of_lt' (show n < 2 ^ 32 by omega), hn]
    rw [← htoNat, UInt32.toNat_inj, u32At_eq_iff (h.length_eq ▸ hresult)]
    have hslice := @slice_eq_iff _ s.mem.buffer result (le32 (UInt32.ofNat n))
    rwa [length_le32] at hslice
  rw [reported_iff h.records_eq (hperm.nodup_iff.mpr List.nodup_range) hlt hlen, hnumber,
    and_iff_left hkept]
  constructor
  · intro hnumber k i hk r j hr hj heq
    rw [hrecord i (List.mem_of_getElem? hk)] at hr
    rw [length_le32] at hj
    rw [← hinside k i hk r hr, heq, hnumber j hj]
  · intro hagree j hj
    by_cases hrecord' : ∃ k < is.length, ∃ r < 14, result + j = out + 32 * k + r
    · obtain ⟨k, hk, r, hr, heq⟩ := hrecord'
      have hsome := List.getElem?_eq_getElem hk
      rw [heq, hinside k _ hsome r hr]
      refine hagree k _ hsome r j ?_ (by rwa [length_le32]) heq.symm
      rwa [hrecord _ (List.getElem_mem hk)]
    · -- outside of the records the number is where it was stored
      rw [houtside _ fun k hk r hr heq => hrecord' ⟨k, hk, r, hr, heq⟩]
      have hslice := @slice_eq_iff _ base result (le32 (UInt32.ofNat n))
      rw [length_le32] at hslice
      exact hslice.mp hcount j hj

/-- The number of the records is written over them. -/
theorem reported_part (hrecords : s.records = recordsOf host inBuf is) (hnodup : is.Nodup)
    (hlt : ∀ i ∈ is, i < n) (hle : is.length ≤ n)
    (hmemory : s.mem.buffer = overwrite (laid out base (recordsOf host inBuf is)) result
      (le32 (UInt32.ofNat is.length))) :
    Reported inBuf n out result s ↔ ∀ k i, is[k]? = some i →
      Agree (out + 32 * k) (userDataAt inBuf i) result (le32 (UInt32.ofNat is.length)) := by
  have hfits := hlayout.fits
  have hout := hlayout.output_le
  have hrecord : ∀ i ∈ is, (recordAt host inBuf i).length = 14 :=
    fun i hi => length_recordAt hlen (hlt i hi)
  obtain ⟨hlength, hinside, -⟩ :=
    laid_spec hrecord (show out + 32 * is.length ≤ base.length by omega)
  have hfit : result + (le32 (UInt32.ofNat is.length)).length ≤
      (laid out base (recordsOf host inBuf is)).length := by
    rw [length_le32, hlength]
    omega
  have hnumber : (u32At s.mem.buffer result).toNat = is.length := by
    rw [hmemory, overwrite, u32At_append (List.length_take_of_le (by omega)),
      UInt32.toNat_ofNat_of_lt' (show is.length < 2 ^ 32 by omega)]
  rw [reported_iff hrecords hnodup hlt hlen, and_iff_right hnumber]
  refine forall_congr' fun k => forall_congr' fun i => imp_congr_right fun hk => ?_
  obtain ⟨hk', -⟩ := List.getElem?_eq_some_iff.mp hk
  have hi := hlt i (List.mem_of_getElem? hk)
  have hdata := @length_userDataAt n i inBuf hlen hi
  -- a byte of the record is still there, or one of the number
  have hbyte (r : Nat) (hr : r < 8) : s.mem.buffer[out + 32 * k + r]? =
      if result ≤ out + 32 * k + r ∧ out + 32 * k + r < result + 4 then
        (le32 (UInt32.ofNat is.length))[out + 32 * k + r - result]? else (userDataAt inBuf i)[r]? := by
    rw [hmemory, getElem?_overwrite hfit, length_le32, hinside k i hk r (by omega),
      ← @take_recordAt host n i inBuf hlen hi, List.getElem?_take, if_pos hr]
  rw [← hdata, slice_eq_iff, hdata]
  constructor
  · intro hkept r j hr hj heq
    rw [hdata] at hr
    rw [length_le32] at hj
    rw [← hkept r hr, hbyte r hr, if_pos (by omega), heq, Nat.add_sub_cancel_left]
  · intro hagree r hr
    rw [hbyte r hr]
    split
    · next hin =>
      exact (hagree r (out + 32 * k + r - result) (by omega) (by rw [length_le32]; omega)
        (by omega)).symm
    · rfl

end Memory

/-- The number is stored outside of the output. -/
theorem undisturbed_of_disjoint {host : Host} {inBuf : Bytes} {n out result : Nat}
    (hlen : inBuf.length = 48 * n)
    (h : result + 4 ≤ out ∨ out + 32 * n ≤ result) : Undisturbed host inBuf n out result := by
  have hlength := length_atOnce_add host inBuf n
  have hlt (i : Nat) (hi : i ∈ atOnce host inBuf n ++ later host inBuf n) : i < n :=
    List.mem_range.mp ((atOnce_perm host inBuf n).mem_iff.mp hi)
  constructor
  · intro _ k i hk r j hr hj heq
    obtain ⟨hk', -⟩ := List.getElem?_eq_some_iff.mp hk
    rw [length_recordAt hlen (hlt i (List.mem_of_getElem? hk))] at hr
    rw [length_le32] at hj
    rw [List.length_append] at hk'
    omega
  · intro _ _ k i hk r j hr hj heq
    obtain ⟨hk', -⟩ := List.getElem?_eq_some_iff.mp hk
    rw [length_userDataAt hlen (hlt i (List.mem_append_left _ (List.mem_of_getElem? hk)))] at hr
    rw [length_le32] at hj
    omega

/-! ### Times -/

/-- A timeout that none is shorter than. -/
def Least (ts : List UInt64) (m : UInt64) : Prop := m ∈ ts ∧ ∀ t ∈ ts, m ≤ t

/-- What is expected of the times, `ts` being the timeouts of the clocks: a call that does not ask
standard input sleeps for the least of them, and not at all without clocks; one that does lets it
wait for no longer than that. -/
structure OnTime (ts : List UInt64) (s : State) : Prop where
  idle : s.waited = none → ts = [] → s.slept = none
  sleep : s.waited = none → ∀ m, Least ts m → (s.slept.getD 0).toInt = m.toNat
  wait : ∀ w, s.waited = some w → ∀ m, Least ts m → 0 ≤ w.toInt ∧ w.toInt ≤ m.toNat / 1000000

theorem toInt_toInt64 (t : UInt64) :
    t.toInt64.toInt = if t.toNat < 2 ^ 63 then (t.toNat : Int) else (t.toNat : Int) - 2 ^ 64 := by
  change t.toBitVec.toInt = _
  rw [BitVec.toInt_eq_toNat_cond, UInt64.toNat_toBitVec]
  split
  · rw [if_pos (by omega)]
  · rw [if_neg (by omega)]
    rfl

theorem exists_least {ts : List UInt64} (h : ts ≠ []) : ∃ m, Least ts m := by
  induction ts with
  | nil => exact absurd rfl h
  | cons t ts ih =>
    by_cases hts : ts = []
    · exact ⟨t, List.mem_cons_self, fun u hu => by
        rw [hts] at hu
        rw [List.mem_singleton.mp hu]
        exact UInt64.le_refl t⟩
    · obtain ⟨m, hm, hle⟩ := ih hts
      rcases UInt64.le_total t m with htm | hmt
      · exact ⟨t, List.mem_cons_self, List.forall_mem_cons.mpr
          ⟨UInt64.le_refl t, fun u hu => UInt64.le_trans htm (hle u hu)⟩⟩
      · exact ⟨m, List.mem_cons_of_mem t hm, List.forall_mem_cons.mpr ⟨hmt, hle⟩⟩

/-- A running minimum is its start or one of the timeouts, and no more than any. -/
theorem foldl_shorter (ts : List UInt64) (start : Int64) :
    let T := ts.foldl (fun timeout t => if t.toInt64 < timeout then t.toInt64 else timeout) start
    (T = start ∨ ∃ t ∈ ts, T = t.toInt64) ∧ T.toInt ≤ start.toInt ∧
      ∀ t ∈ ts, T.toInt ≤ t.toInt64.toInt := by
  induction ts generalizing start with
  | nil => exact ⟨Or.inl rfl, le_rfl, List.forall_mem_nil _⟩
  | cons t ts ih =>
    dsimp only [List.foldl_cons] at ih ⊢
    obtain ⟨hmem, hstart, hall⟩ := ih (if t.toInt64 < start then t.toInt64 else start)
    by_cases ht : t.toInt64 < start
    · rw [if_pos ht] at hmem hstart hall ⊢
      refine ⟨Or.inr ?_, hstart.trans (Int64.lt_iff_toInt_lt.mp ht).le,
        List.forall_mem_cons.mpr ⟨hstart, hall⟩⟩
      rcases hmem with h | ⟨u, hu, h⟩
      · exact ⟨t, List.mem_cons_self, h⟩
      · exact ⟨u, List.mem_cons_of_mem t hu, h⟩
    · rw [if_neg ht] at hmem hstart hall ⊢
      have hle : start.toInt ≤ t.toInt64.toInt :=
        not_lt.mp fun h => ht (Int64.lt_iff_toInt_lt.mpr h)
      refine ⟨?_, hstart, List.forall_mem_cons.mpr ⟨hstart.trans hle, hall⟩⟩
      rcases hmem with h | ⟨u, hu, h⟩
      · exact Or.inl h
      · exact Or.inr ⟨u, List.mem_cons_of_mem t hu, h⟩

/-- The shortest timeout is the one that is least as a signed number. -/
theorem soonest_spec {ts : List UInt64} (h : ts ≠ []) :
    ∃ h ∈ ts, (soonest ts).toInt = h.toInt64.toInt ∧
      ∀ t ∈ ts, h.toInt64.toInt ≤ t.toInt64.toInt := by
  obtain ⟨hmem, -, hall⟩ := foldl_shorter ts Int64.maxValue
  rcases hmem with hstart | ⟨u, hu, hT⟩
  · -- no timeout is below the largest number there is, so the first one is that number
    -- any timeout will do
    obtain ⟨t, ht⟩ := List.exists_mem_of_ne_nil ts h
    have hmax : t.toInt64.toInt = (soonest ts).toInt := by
      refine le_antisymm ?_ (hall t ht)
      rw [soonest, hstart]
      exact Int64.toInt_le _
    exact ⟨t, ht, hmax.symm, fun u hu => hmax.symm ▸ hall u hu⟩
  · exact ⟨u, hu, congrArg Int64.toInt hT, fun t ht => by
      have := hall t ht
      rwa [hT] at this⟩

/-- When the milliseconds of the shortest timeout, cut down to 32 bits, are no more than those of
the least timeout `m`: they are, if all timeouts are positive as signed numbers, unless the sign of
the 32 bits is set; else the shortest one is a negative number. -/
def WaitFits (ts : List UInt64) (m : UInt64) : Prop :=
  ((∀ t ∈ ts, t.toNat < 2 ^ 63) ∧ m.toNat / 1000000 % 2 ^ 32 < 2 ^ 31) ∨
    ∃ h ∈ ts, 2 ^ 63 ≤ h.toNat ∧ (∀ t ∈ ts, 2 ^ 63 ≤ t.toNat → h ≤ t) ∧
      (2 ^ 32 - (2 ^ 64 - h.toNat) / 1000000 % 2 ^ 32) % 2 ^ 32 ≤
        min (m.toNat / 1000000) (2 ^ 31 - 1)

theorem toInt_wait (T : Int64) :
    (T / 1000000).toInt32.toInt = (T.toInt.tdiv 1000000).bmod (2 ^ 32) := by
  have hle := T.toInt_lt
  have hge := T.le_toInt
  rw [Int64.toInt_toInt32, Int64.toInt_div]
  change ((T.toInt.tdiv 1000000).bmod (2 ^ 64)).bmod (2 ^ 32) = _
  rw [Int.bmod_bmod_of_dvd (by decide)]

section Times

variable {ts : List UInt64} {m : UInt64}

theorem soonest_of_lt (hm : Least ts m) (h : ∀ t ∈ ts, t.toNat < 2 ^ 63) :
    (soonest ts).toInt = m.toNat := by
  obtain ⟨u, hu, hT, hall⟩ := soonest_spec (List.ne_nil_of_mem hm.1)
  have hle := hall m hm.1
  have hmu := UInt64.le_iff_toNat_le.mp (hm.2 u hu)
  rw [toInt_toInt64, toInt_toInt64, if_pos (h u hu), if_pos (h m hm.1)] at hle
  rw [hT, toInt_toInt64, if_pos (h u hu)]
  omega

theorem soonest_of_ge (h : ∃ t ∈ ts, 2 ^ 63 ≤ t.toNat) :
    ∃ u ∈ ts, 2 ^ 63 ≤ u.toNat ∧ (∀ t ∈ ts, 2 ^ 63 ≤ t.toNat → u ≤ t) ∧
      (soonest ts).toInt = (u.toNat : Int) - 2 ^ 64 := by
  obtain ⟨t, ht, hge⟩ := h
  obtain ⟨u, hu, hT, hall⟩ := soonest_spec (List.ne_nil_of_mem ht)
  have hlt := t.toNat_lt
  have hneg := hall t ht
  rw [toInt_toInt64, toInt_toInt64 t, if_neg (by omega : ¬ t.toNat < 2 ^ 63)] at hneg
  -- a number that is not negative cannot be the least of numbers of which one is negative
  have huge : 2 ^ 63 ≤ u.toNat := by
    by_contra hsmall
    rw [if_pos (by omega : u.toNat < 2 ^ 63)] at hneg
    omega
  refine ⟨u, hu, huge, fun v hv hv63 => ?_, ?_⟩
  · have hle := hall v hv
    rw [toInt_toInt64, toInt_toInt64 v, if_neg (by omega), if_neg (by omega)] at hle
    exact UInt64.le_iff_toNat_le.mpr (by omega)
  · rw [hT, toInt_toInt64, if_neg (by omega)]

/-- A call sleeps for the least timeout if there are no timeouts of 2^63 nanoseconds and more, or if
there is nothing to wait for. -/
theorem slept_iff (hm : Least ts m) :
    ((if 0 < soonest ts then some (soonest ts) else none).getD 0).toInt = m.toNat ↔
      0 ∈ ts ∨ ∀ t ∈ ts, t.toNat < 2 ^ 63 := by
  by_cases hall : ∀ t ∈ ts, t.toNat < 2 ^ 63
  · refine iff_of_true ?_ (Or.inr hall)
    have hT := soonest_of_lt hm hall
    split
    · exact hT
    · next hpos =>
      have hle : ¬ (0 : Int) < (soonest ts).toInt := fun h => hpos (Int64.lt_iff_toInt_lt.mpr h)
      change (0 : Int) = _
      omega
  · have hge : ∃ t ∈ ts, 2 ^ 63 ≤ t.toNat := by
      simpa only [not_forall, not_lt, exists_prop] using hall
    obtain ⟨u, -, -, -, hT⟩ := soonest_of_ge hge
    have hlt := u.toNat_lt
    -- the timeout is negative, and the host does not sleep at all
    have hneg : ¬ 0 < soonest ts := fun h => by
      have : (0 : Int) < (soonest ts).toInt := Int64.lt_iff_toInt_lt.mp h
      omega
    rw [if_neg hneg, or_iff_left hall]
    change (0 : Int) = _ ↔ _
    constructor
    · intro hzero
      have : m = 0 := UInt64.toNat.inj (by change m.toNat = 0; omega)
      exact this ▸ hm.1
    · intro hmem
      have hle := UInt64.le_iff_toNat_le.mp (hm.2 0 hmem)
      change m.toNat ≤ 0 at hle
      omega

theorem waited_iff (hm : Least ts m) :
    (0 ≤ (soonest ts / 1000000).toInt32.toInt ∧
      (soonest ts / 1000000).toInt32.toInt ≤ m.toNat / 1000000) ↔ WaitFits ts m := by
  rw [toInt_wait, WaitFits]
  by_cases hall : ∀ t ∈ ts, t.toNat < 2 ^ 63
  · -- no timeout is negative: the first clause decides
    have hnone : ¬ ∃ h ∈ ts, 2 ^ 63 ≤ h.toNat ∧ (∀ t ∈ ts, 2 ^ 63 ≤ t.toNat → h ≤ t) ∧
        (2 ^ 32 - (2 ^ 64 - h.toNat) / 1000000 % 2 ^ 32) % 2 ^ 32 ≤
          min (m.toNat / 1000000) (2 ^ 31 - 1) := by
      rintro ⟨h, hmem, hge, -⟩
      exact absurd (hall h hmem) (by omega)
    rw [or_iff_left hnone, and_iff_right hall, soonest_of_lt hm hall,
      Int.tdiv_eq_ediv_of_nonneg (Int.natCast_nonneg _), Int.bmod_def]
    split <;> omega
  · have hge : ∃ t ∈ ts, 2 ^ 63 ≤ t.toNat := by
      simpa only [not_forall, not_lt, exists_prop] using hall
    obtain ⟨u, hu, hu63, hleast, hT⟩ := soonest_of_ge hge
    have hlt := u.toNat_lt
    -- the division is towards zero, and the quotient is then cut off to 32 bits
    have htdiv : ((u.toNat : Int) - 2 ^ 64).tdiv 1000000 =
        -(((2 ^ 64 - u.toNat) / 1000000 : Nat) : Int) := by
      have : (u.toNat : Int) - 2 ^ 64 = -((2 ^ 64 - u.toNat : Nat) : Int) := by omega
      rw [this, Int.neg_tdiv]
      rfl
    rw [hT, htdiv, or_iff_right fun h => hall h.1]
    have hself : (0 ≤ (-(((2 ^ 64 - u.toNat) / 1000000 : Nat) : Int)).bmod (2 ^ 32) ∧
        (-(((2 ^ 64 - u.toNat) / 1000000 : Nat) : Int)).bmod (2 ^ 32) ≤ m.toNat / 1000000) ↔
        (2 ^ 32 - (2 ^ 64 - u.toNat) / 1000000 % 2 ^ 32) % 2 ^ 32 ≤
          min (m.toNat / 1000000) (2 ^ 31 - 1) := by
      generalize (2 ^ 64 - u.toNat) / 1000000 = q
      rw [Int.bmod_def]
      split <;> omega
    refine hself.trans ⟨fun h => ⟨u, hu, hu63, hleast, h⟩, ?_⟩
    rintro ⟨v, hv, hv63, hvleast, h⟩
    -- the least of the negative ones is the only one that the second clause can be about
    have hvu : v = u := UInt64.le_antisymm (hvleast u hu hu63) (hleast v hv hv63)
    rwa [hvu] at h

end Times

/-! ### Whole calls -/

/-- Memory when the loop begins: the output is cleared, and the count of subscriptions is stored. -/
def started (mem : MemoryInstance) (out nsubscriptions resultNevents : UInt32) : MemoryInstance :=
  { mem with
    buffer := overwrite
      (overwrite mem.buffer out.toNat (List.replicate (nsubscriptions * 32).toNat 0))
      resultNevents.toNat (le32 nsubscriptions) }

/-- The subscriptions as the loop finds them. They are those of the guest, unless it had the count
stored among them. -/
def subscriptions (mem : MemoryInstance) (inn out nsubscriptions resultNevents : UInt32) : Bytes :=
  slice (started mem out nsubscriptions resultNevents).buffer inn.toNat
    (inn.toNat + 48 * nsubscriptions.toNat)

section Call

theorem toNat_inSize {n : UInt32} (h : 48 * n.toNat < 2 ^ 32) : (n * 48).toNat = 48 * n.toNat := by
  rw [UInt32.toNat_mul, Nat.mul_comm]
  exact Nat.mod_eq_of_lt h

theorem toNat_outSize {n : UInt32} (h : 48 * n.toNat < 2 ^ 32) :
    (n * 32).toNat = 32 * n.toNat := by
  rw [UInt32.toNat_mul, Nat.mul_comm]
  exact Nat.mod_eq_of_lt (by change 32 * n.toNat < 2 ^ 32; omega)

variable {host : Host} {mem : GuestMemory} {inn out nsubscriptions resultNevents : UInt32}

/-- The call without its accesses to memory. -/
theorem pollOneoff_eq (h : nsubscriptions ≠ 0) :
    pollOneoff host mem.toMemoryInstance inn out nsubscriptions resultNevents =
      if inn.toNat + (nsubscriptions * 48).toNat ≤ mem.buffer.length then
        if inn.toNat + (nsubscriptions * 48).toNat = 2 ^ 32 then .error .panic
        else if out.toNat + (nsubscriptions * 32).toNat ≤ mem.buffer.length then
          if out.toNat + (nsubscriptions * 32).toNat = 2 ^ 32 then .error .panic
          else if resultNevents.toNat + 4 ≤ mem.buffer.length then
            (List.range nsubscriptions.toNat).foldlM
              (processOne host inn.toNat (nsubscriptions * 48).toNat out.toNat
                (nsubscriptions * 32).toNat)
              { mem := started mem.toMemoryInstance out nsubscriptions resultNevents } >>=
              finish host out.toNat (nsubscriptions * 32).toNat nsubscriptions resultNevents
          else .error (.error .EFAULT)
        else .error (.error .EFAULT)
      else .error (.error .EFAULT) := by
  rw [pollOneoff, if_neg h, orFault_read, orFault_read]
  by_cases hin : inn.toNat + (nsubscriptions * 48).toNat ≤ mem.buffer.length
  · rw [if_pos hin, if_pos hin]
    by_cases hinEnd : inn.toNat + (nsubscriptions * 48).toNat = 2 ^ 32
    · rw [if_pos hinEnd, if_pos hinEnd]
      rfl
    rw [if_neg hinEnd, if_neg hinEnd]
    by_cases hout : out.toNat + (nsubscriptions * 32).toNat ≤ mem.buffer.length
    · rw [if_pos hout, if_pos hout]
      by_cases houtEnd : out.toNat + (nsubscriptions * 32).toNat = 2 ^ 32
      · rw [if_pos houtEnd, if_pos houtEnd]
        rfl
      rw [if_neg houtEnd, if_neg houtEnd]
      change (orFault (MemoryInstance.writeUint32Le _ _ _) >>= _) = _
      rw [orFault_writeUint32Le, length_slice hin, length_slice hout, Nat.add_sub_cancel_left,
        Nat.add_sub_cancel_left, length_overwrite (by rwa [List.length_replicate])]
      split
      · rfl
      · rfl
    · rw [if_neg hout, if_neg hout]
      rfl
  · rw [if_neg hin, if_neg hin]
    rfl

theorem length_started (hout : out.toNat + (nsubscriptions * 32).toNat ≤ mem.buffer.length)
    (hresult : resultNevents.toNat + 4 ≤ mem.buffer.length) :
    (started mem.toMemoryInstance out nsubscriptions resultNevents).buffer.length =
      mem.buffer.length := by
  have hcleared := length_overwrite (l := mem.buffer) (i := out.toNat)
    (b := List.replicate (nsubscriptions * 32).toNat 0) (by rwa [List.length_replicate])
  rw [started, length_overwrite (by rwa [length_le32, hcleared]), hcleared]

/-- The number of subscriptions is where the guest wants it when the loop begins. -/
theorem slice_started (hout : out.toNat + (nsubscriptions * 32).toNat ≤ mem.buffer.length)
    (hresult : resultNevents.toNat + 4 ≤ mem.buffer.length) :
    slice (started mem.toMemoryInstance out nsubscriptions resultNevents).buffer resultNevents.toNat
      (resultNevents.toNat + 4) = le32 nsubscriptions := by
  have hcleared := length_overwrite (l := mem.buffer) (i := out.toNat)
    (b := List.replicate (nsubscriptions * 32).toNat 0) (by rwa [List.length_replicate])
  have hself := slice_overwrite_self (j := resultNevents.toNat + 4) (i := resultNevents.toNat)
    (b := le32 nsubscriptions) (by rw [length_le32]) (hcleared.symm ▸ hresult)
  rw [length_le32, slice_self, List.append_nil] at hself
  exact hself

end Call

end Poll

end Wasi
