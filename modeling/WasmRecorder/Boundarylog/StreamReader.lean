import WasmRecorder.Boundarylog.LoadRecording
import WasmRecorder.Boundarylog.Scanner

/-!
# Reading a recording as it arrives

`StreamReader` reads `trace.json` while it is being written and hands out its call groups,
each as soon as it is complete.

* `outcome` — the same, computed from the chunks the source returns by running the byte
  lexer and the assembler over them.
* `arrivals` — the outcome with the host state the reader holds at each group.
  `arrives_arrivals` says that the reader computes it, `yields_ofChunks` the same of the
  outcome.
-/

namespace Boundarylog

open Fallible Json Json.ArrayLexer

/-! ### The source -/

inductive SourceError where
  | eof
  | failed (message : Text)
  deriving DecidableEq, Repr

/-- What one `Read` returns: some bytes and perhaps an error. A source that has nothing more
to return reports the end of the file. -/
structure Read where
  data : Bytes
  err : Option SourceError := none
  deriving DecidableEq, Repr

/-! ### Truncation -/

inductive TruncationKind where
  /-- The last bytes are not a record. -/
  | midRecord
  /-- An exported call was entered and never returned. -/
  | midCrossing
  /-- Everything was complete but the array was never closed. -/
  | unterminated
  deriving DecidableEq, Repr

/-- The stream ended before the producer finished writing it. -/
structure TruncationError where
  kind : TruncationKind
  /-- The number of complete call groups handed out before the end. -/
  groups : Nat
  openCrossings : Nat
  pendingBytes : Nat
  deriving DecidableEq, Repr

inductive StreamError where
  | truncation (t : TruncationError)
  | scan (e : LexError)
  | decode (e : UnmarshalError)
  | assembly (e : AssemblyError)
  | read (message : Text)
  deriving DecidableEq, Repr

/-- What is returned in place of a group. -/
inductive NextError where
  | eof
  | failed (e : StreamError)
  deriving DecidableEq, Repr

/-! ### The reader -/

structure StreamReader where
  src : List Read
  sc : JsonArrayScanner := {}
  asm : Assembler := {}
  /-- The index of the group handed out next. -/
  next : Nat := 0
  /-- The producer has finished. -/
  eof : Bool := false
  /-- The assembler has been finished. -/
  closed : Bool := false
  /-- A terminal error. -/
  failed : Option StreamError := none

/-- Decode a record and feed it to the assembler. -/
def pushRaw (a : Assembler) (raw : Bytes) : Except StreamError Assembler :=
  match unmarshal TraceEvent.into {} raw with
  | .error e => .error (.decode e)
  | .ok ev =>
    match a.push ev with
    | .error e => .error (.assembly e)
    | .ok a' => .ok a'

namespace StreamReader

/-- Decode every complete record the scanner can now produce. -/
def drain (s : StreamReader) : Except StreamError StreamReader :=
  match JsonArrayScanner.drain .scan pushRaw (s.sc, s.asm) with
  | .error e => .error e
  | .ok (sc, asm) => .ok { s with sc, asm }

/-- Take in the bytes of a read. -/
def absorb (s : StreamReader) (data : Bytes) : Except StreamError StreamReader :=
  if data = [] then .ok s else drain { s with sc := s.sc.feed data }

/-- Take in what one read of the source returned. -/
def pump (s : StreamReader) (rd : Read) : Except StreamError StreamReader :=
  match s.absorb rd.data with
  | .error e => .error e
  | .ok s =>
    match rd.err with
    | none => .ok s
    | some .eof => .ok { s with eof := true }
    | some (.failed message) => .error (.read message)

/-- Close the assembler and classify an unclean end, the most severe first. -/
def finishStream (s : StreamReader) : Except StreamError Assembler :=
  let pending := s.sc.pending
  let opened := s.asm.openCrossings
  if 0 < pending then
    .error (.truncation ⟨.midRecord, s.next, opened, pending⟩)
  else match s.asm.finish with
    | .error e =>
      if 0 < opened then .error (.truncation ⟨.midCrossing, s.next, opened, 0⟩)
      else .error (.assembly e)
    | .ok asm =>
      if ¬ s.sc.done then .error (.truncation ⟨.unterminated, s.next, 0, 0⟩)
      else .ok asm

/-- Hand out the next group if it is complete, and report the end of the stream if not. -/
def takeGroup (s : StreamReader) : StreamReader × Except NextError (List Crossing) :=
  if s.next < s.asm.groups then ({ s with next := s.next + 1 }, .ok (s.asm.group s.next))
  else (s, .error .eof)

/-- The producer has finished and no complete group is left: close the assembler, which may
complete one last group. -/
def endOfStream (s : StreamReader) : StreamReader × Except NextError (List Crossing) :=
  if s.closed then (s, .error .eof)
  else match s.finishStream with
    | .error e => ({ s with closed := true, failed := some e }, .error (.failed e))
    | .ok asm => takeGroup { s with closed := true, asm }

/-- Read from `src` until a group is complete or the producer has finished. -/
def nextGroupFrom (src : List Read) (s : StreamReader) :
    StreamReader × Except NextError (List Crossing) :=
  if s.next < s.asm.groups then s.takeGroup
  else if s.eof then s.endOfStream
  else match src with
    | [] => endOfStream { s with eof := true }
    | rd :: src =>
      match s.pump rd with
      | .error e => ({ s with src, failed := some e }, .error (.failed e))
      | .ok s' => nextGroupFrom src { s' with src }

/-- The next complete call group. -/
def nextGroup (s : StreamReader) : StreamReader × Except NextError (List Crossing) :=
  match s.failed with
  | some e => (s, .error (.failed e))
  | none => nextGroupFrom s.src s

/-- A reader of a source that returns these chunks, one at a time. -/
def ofChunks (chunks : List Bytes) : StreamReader where
  src := chunks.map fun data => { data }

end StreamReader

/-- Successive calls of `nextGroup` return these groups and then, for good, this error. -/
inductive Yields : StreamReader → List (List Crossing) → NextError → Prop
  | stop {s s' : StreamReader} {e : NextError} (h : s.nextGroup = (s', .error e)) : Yields s [] e
  | more {s s' : StreamReader} {g : List Crossing} {gs : List (List Crossing)} {e : NextError}
      (h : s.nextGroup = (s', .ok g)) (hs : Yields s' gs e) : Yields s (g :: gs) e

/-! ### Computing the outcome -/

/-- What the reader has taken in: the lexer and the assembler, and the bytes left unread
after the closing bracket. -/
abbrev Core := (Position × Assembler) × Bytes

/-- Take in one chunk. -/
abbrev Core.read : Core → Bytes → Except StreamError Core := readChunk .scan pushRaw

/-- Take in one byte. -/
abbrev readByte : Position × Assembler → UInt8 → Except StreamError (Position × Assembler) :=
  consume .scan pushRaw

/-- How a stream ends whose bytes have all been taken in. -/
def finishOutcome (pos : Position) (a : Assembler) : List (List Crossing) × NextError :=
  let cut (kind : TruncationKind) (opened pending : Nat) : NextError :=
    .failed (.truncation ⟨kind, a.groups, opened, pending⟩)
  if 0 < pos.pending then (a.groupList, cut .midRecord a.openCrossings pos.pending)
  else match a.finish with
    | .error e =>
      if 0 < a.openCrossings then (a.groupList, cut .midCrossing a.openCrossings 0)
      else (a.groupList, .failed (.assembly e))
    | .ok a' =>
      if pos ≠ .after then (a.groupList, cut .unterminated 0 0) else (a'.groupList, .eof)

/-- The groups a stream yields and how it ends. A chunk that fails yields nothing of its
own. -/
def outcome : Core → List Bytes → List (List Crossing) × NextError
  | core, [] => finishOutcome core.1.1 core.1.2
  | core, chunk :: chunks =>
    match core.read chunk with
    | .error e => (core.1.2.groupList, .failed e)
    | .ok core' => outcome core' chunks

/-! ### Earlier groups stay -/

theorem pushRaw_ok {a a' : Assembler} {raw : Bytes} (h : pushRaw a raw = .ok a') :
    ∃ ev, unmarshal TraceEvent.into {} raw = .ok ev ∧ a.push ev = .ok a' := by
  rw [pushRaw] at h
  split at h
  · cases h
  · next ev hev =>
    split at h
    · cases h
    · next a₁ hpush =>
      cases h
      exact ⟨ev, hev, hpush⟩

theorem readByte_evolves {st st' : Position × Assembler} {c : UInt8} (hinv : st.2.Inv)
    (h : readByte st c = .ok st') : st.2.Evolves st'.2 := by
  rw [readByte, consume] at h
  split at h
  · cases h
  · cases h
    exact Assembler.Evolves.refl hinv
  · obtain ⟨a, hpush, rfl⟩ := map_eq_ok.mp h
    obtain ⟨ev, -, hev⟩ := pushRaw_ok hpush
    exact Assembler.push_evolves hinv hev

theorem readBytes_evolves {st st' : Position × Assembler} {b : Bytes} (hinv : st.2.Inv)
    (h : feed readByte st b = .ok st') : st.2.Evolves st'.2 := by
  refine ⟨feed_preserves (fun st => st.2.Inv) (fun st c st' hst hc => ?_) hinv h, ?_⟩
  · exact (readByte_evolves hst hc).inv
  · refine feed_rel (fun st => st.2.Inv) (fun st st' => st.2.Extends st'.2) (fun st => ?_)
      (fun _ _ _ h₁ h₂ => h₁.trans h₂) (fun st c st' hst hc => ?_) hinv h
    · exact Assembler.Extends.refl st.2
    · exact ⟨(readByte_evolves hst hc).inv, (readByte_evolves hst hc).ext⟩

theorem Core.read_evolves {core core' : Core} {chunk : Bytes} (hinv : core.1.2.Inv)
    (h : core.read chunk = .ok core') : core.1.2.Evolves core'.1.2 := by
  obtain ⟨b₁, -, hfeed, -⟩ := lex_ok h
  exact readBytes_evolves hinv hfeed

theorem finishOutcome_prefix (pos : Position) {a : Assembler} (hinv : a.Inv) :
    a.groupList <+: (finishOutcome pos a).1 := by
  have hend : ∀ a', a.finish = .ok a' → a.groupList <+: a'.groupList := fun a' h =>
    hinv.groupList_prefix (Assembler.finish_evolves hinv h).ext
  rw [finishOutcome]
  cases h : a.finish with
  | error e =>
    dsimp only
    split_ifs <;> exact List.prefix_refl _
  | ok a' =>
    dsimp only
    split_ifs
    · exact List.prefix_refl _
    · exact List.prefix_refl _
    · exact hend a' h

theorem outcome_prefix {core : Core} (chunks : List Bytes) (hinv : core.1.2.Inv) :
    core.1.2.groupList <+: (outcome core chunks).1 := by
  induction chunks generalizing core with
  | nil => exact finishOutcome_prefix _ hinv
  | cons chunk chunks ih =>
    rw [outcome]
    split
    · exact List.prefix_refl _
    · next core' h =>
      have hstep := Core.read_evolves hinv h
      exact (hinv.groupList_prefix hstep.ext).trans (ih hstep.inv)

/-! ### The reader computes the outcome -/

namespace StreamReader

/-- A reader that has taken in a core and is still reading. -/
structure Holds (s : StreamReader) (core : Core) : Prop where
  scanner : s.sc.Inv
  position : s.sc.position = core.1.1
  asm : s.asm = core.1.2
  unread : s.sc.unread = core.2
  closed : core.2 ≠ [] → core.1.1 = .after
  reading : s.eof = false ∧ s.closed = false ∧ s.failed = none

theorem holds_ofChunks (chunks : List Bytes) : (ofChunks chunks).Holds ((.before, {}), []) where
  scanner := JsonArrayScanner.inv_empty
  position := rfl
  asm := rfl
  unread := rfl
  closed := fun h => absurd rfl h
  reading := ⟨rfl, rfl, rfl⟩

variable {s : StreamReader}

theorem pump_spec {core : Core} (h : s.Holds core) {chunk : Bytes} (hne : chunk ≠ []) :
    match core.read chunk with
    | .error e => s.pump { data := chunk } = .error e
    | .ok core' => ∃ s', s.pump { data := chunk } = .ok s' ∧ s'.Holds core' ∧ s'.next = s.next := by
  have hdrain := JsonArrayScanner.drain_spec StreamError.scan pushRaw s.asm
    (JsonArrayScanner.inv_feed h.scanner chunk)
  rw [JsonArrayScanner.position_feed h.scanner, JsonArrayScanner.unread_feed h.scanner, h.position,
    h.asm, h.unread] at hdrain
  have hread : core.read chunk = lex StreamError.scan pushRaw (core.1.1, core.1.2)
      (core.2 ++ chunk) := rfl
  have hpump : s.pump { data := chunk } = drain { s with sc := s.sc.feed chunk } := by
    rw [pump, absorb, if_neg hne]
    dsimp only
    cases drain { s with sc := s.sc.feed chunk } <;> rfl
  rw [hpump, drain, hread]
  dsimp only
  rw [h.asm]
  cases hlex : lex StreamError.scan pushRaw (core.1.1, core.1.2) (core.2 ++ chunk) with
  | error e =>
    rw [hlex] at hdrain
    rw [hdrain]
  | ok out =>
    obtain ⟨st, rest⟩ := out
    rw [hlex] at hdrain
    obtain ⟨sc, hsc, hinv, hpos, hrest⟩ := hdrain
    obtain ⟨-, -, -, hclosed⟩ := lex_ok hlex
    rw [hsc]
    exact ⟨_, rfl, ⟨hinv, hpos, rfl, hrest, hclosed, h.reading⟩, rfl⟩

theorem finishStream_spec {core : Core} (h : s.Holds core) (hnext : s.next = s.asm.groups) :
    finishOutcome core.1.1 core.1.2 = match s.finishStream with
    | .error e => (s.asm.groupList, .failed e)
    | .ok a => (a.groupList, .eof) := by
  have hpending : s.sc.pending = core.1.1.pending := by
    rw [← h.position]
    refine JsonArrayScanner.pending_eq h.scanner fun hne => ?_
    rw [h.position]
    exact h.closed (h.unread ▸ hne)
  have hdone : s.sc.done = true ↔ core.1.1 = .after := by
    rw [← h.position]
    exact JsonArrayScanner.done_iff h.scanner
  rw [finishOutcome, finishStream, hpending, ← h.asm, hnext]
  dsimp only
  cases hfin : s.asm.finish with
  | error e =>
    dsimp only
    split_ifs <;> rfl
  | ok a =>
    dsimp only
    by_cases hafter : core.1.1 = .after
    · rw [hdone.mpr hafter, hafter]
      rfl
    · have hnot : s.sc.done ≠ true := fun hd => hafter (hdone.mp hd)
      rw [if_pos hafter, if_pos hnot]
      split_ifs <;> rfl

theorem nextGroup_of_ok (hfailed : s.failed = none) : s.nextGroup = nextGroupFrom s.src s := by
  rw [nextGroup, hfailed]

theorem nextGroup_take (hfailed : s.failed = none) (hnext : s.next < s.asm.groups) :
    s.nextGroup = ({ s with next := s.next + 1 }, .ok (s.asm.group s.next)) := by
  rw [nextGroup_of_ok hfailed, nextGroupFrom.eq_def, if_pos hnext, takeGroup, if_pos hnext]

/-- A reader that has handed out every complete group and has not seen the end. -/
structure Waiting (s : StreamReader) : Prop where
  failed : s.failed = none
  next : ¬ s.next < s.asm.groups
  eof : ¬ s.eof = true

theorem finishStream_ok {a : Assembler} (h : s.finishStream = .ok a) : s.asm.finish = .ok a := by
  rw [finishStream] at h
  cases hfin : s.asm.finish with
  | error e =>
    rw [hfin] at h
    dsimp only at h
    split_ifs at h
  | ok a' =>
    rw [hfin] at h
    dsimp only at h
    split_ifs at h
    rw [Except.ok.inj h]

theorem nextGroup_pump {s' : StreamReader} {rd : Read} {src : List Read} (h : s.Waiting)
    (hfailed : s'.failed = none) (hsrc : s.src = rd :: src) (hpump : s.pump rd = .ok s') :
    s.nextGroup = nextGroup { s' with src } := by
  rw [nextGroup_of_ok h.failed, hsrc, nextGroupFrom.eq_def, if_neg h.next, if_neg h.eof]
  dsimp only
  rw [hpump, nextGroup_of_ok (s := { s' with src }) hfailed]

theorem nextGroup_fail {rd : Read} {src : List Read} {e : StreamError} (h : s.Waiting)
    (hsrc : s.src = rd :: src) (hpump : s.pump rd = .error e) :
    s.nextGroup = ({ s with src, failed := some e }, .error (.failed e)) := by
  rw [nextGroup_of_ok h.failed, hsrc, nextGroupFrom.eq_def, if_neg h.next, if_neg h.eof]
  dsimp only
  rw [hpump]

theorem nextGroup_end (h : s.Waiting) (hsrc : s.src = []) :
    s.nextGroup = endOfStream { s with eof := true } := by
  have hempty : nextGroupFrom [] s = endOfStream { s with eof := true } := by
    rw [nextGroupFrom.eq_def, if_neg h.next, if_neg h.eof]
  rw [nextGroup_of_ok h.failed, ← hempty, hsrc]

end StreamReader

/-! ### Arrivals -/

/-- A group, with the host state the reader has put together when it hands the group out. -/
abbrev Arrival := List Crossing × Option HostState

/-- Successive calls of `nextGroup`, with the host state each leaves behind. -/
inductive Arrives : StreamReader → List Arrival → NextError → StreamReader → Prop
  | stop {s s' : StreamReader} {e : NextError} (h : s.nextGroup = (s', .error e)) :
      Arrives s [] e s'
  | more {s s' t : StreamReader} {g : List Crossing} {l : List Arrival} {e : NextError}
      (h : s.nextGroup = (s', .ok g)) (hs : Arrives s' l e t) :
      Arrives s ((g, s'.asm.hostState) :: l) e t

variable {s : StreamReader}

theorem Arrives.yields {t : StreamReader} {l : List Arrival} {e : NextError} (h : Arrives s l e t) :
    Yields s (l.map Prod.fst) e := by
  induction h with
  | stop h => exact .stop h
  | more h _ ih => exact .more h ih

/-- The groups from the `n`-th on that an assembler has complete, as a reader hands them
out. -/
def Assembler.handOut (a : Assembler) (n : Nat) : List Arrival :=
  (a.groupList.drop n).map fun g => (g, a.hostState)

structure Arrivals where
  groups : List Arrival
  stop : NextError
  /-- The host state at the end. -/
  final : Option HostState

/-- What arrives from a core of which `n` groups have been handed out. -/
def arrivals : Core → Nat → List Bytes → Arrivals
  | core, n, [] =>
    let out := finishOutcome core.1.1 core.1.2
    ⟨(out.1.drop n).map fun g => (g, core.1.2.hostState), out.2, core.1.2.hostState⟩
  | core, n, chunk :: chunks =>
    match core.read chunk with
    | .error e => ⟨core.1.2.handOut n, .failed e, core.1.2.hostState⟩
    | .ok core' =>
      let rest := arrivals core' core.1.2.groups chunks
      { rest with groups := core.1.2.handOut n ++ rest.groups }

theorem Assembler.handOut_append {a : Assembler} {n : Nat} {gs : List (List Crossing)}
    (hn : n ≤ a.groups) (hpre : a.groupList <+: gs) :
    (a.handOut n).map Prod.fst ++ gs.drop a.groups = gs.drop n := by
  obtain ⟨more, rfl⟩ := hpre
  have hlen := a.length_groupList
  have hfst : (a.handOut n).map Prod.fst = a.groupList.drop n := by
    rw [handOut, List.map_map]
    exact List.map_id _
  rw [hfst, List.drop_left' hlen, List.drop_append_of_le_length (by omega)]

theorem arrivals_outcome {core : Core} {n : Nat} (chunks : List Bytes) (hinv : core.1.2.Inv)
    (hn : n ≤ core.1.2.groups) :
    (arrivals core n chunks).groups.map Prod.fst = (outcome core chunks).1.drop n ∧
      (arrivals core n chunks).stop = (outcome core chunks).2 := by
  induction chunks generalizing core n with
  | nil =>
    refine ⟨?_, rfl⟩
    rw [arrivals, outcome, List.map_map]
    exact List.map_id _
  | cons chunk chunks ih =>
    have hpre := outcome_prefix (chunk :: chunks) hinv
    rw [outcome] at hpre ⊢
    rw [arrivals]
    cases hread : core.read chunk with
    | error e =>
      refine ⟨?_, rfl⟩
      have h := Assembler.handOut_append hn (List.prefix_refl _)
      rw [List.drop_eq_nil_of_le (core.1.2.length_groupList).le, List.append_nil] at h
      exact h
    | ok core' =>
      rw [hread] at hpre
      have hstep := Core.read_evolves hinv hread
      obtain ⟨hgroups, hstop⟩ := ih hstep.inv (hinv.groups_le hstep.ext)
      refine ⟨?_, hstop⟩
      dsimp only
      rw [List.map_append, hgroups]
      exact Assembler.handOut_append hn hpre

theorem Arrives.of_eq {s₁ s₂ t : StreamReader} {l : List Arrival} {e : NextError}
    (heq : s₁.nextGroup = s₂.nextGroup) (h : Arrives s₂ l e t) : Arrives s₁ l e t := by
  cases h with
  | stop h => exact .stop (heq.trans h)
  | more h hs => exact .more (heq.trans h) hs

theorem Arrives.hand_out {t : StreamReader} {l : List Arrival} {e : NextError}
    (hfailed : s.failed = none) (hle : s.next ≤ s.asm.groups)
    (h : Arrives { s with next := s.asm.groups } l e t) :
    Arrives s (s.asm.handOut s.next ++ l) e t := by
  obtain ⟨k, hk⟩ := Nat.exists_eq_add_of_le hle
  induction k generalizing s with
  | zero =>
    have hlen := s.asm.length_groupList
    rw [Assembler.handOut, List.drop_eq_nil_of_le (by omega), List.map_nil, List.nil_append]
    have hs : { s with next := s.asm.groups } = s := by rw [hk, Nat.add_zero]
    rw [hs] at h
    exact h
  | succ k ih =>
    have hlt : s.next < s.asm.groups := by omega
    have hget := Assembler.groupList_getElem? hlt
    rw [Assembler.handOut, List.drop_eq_getElem?_toList_append, hget]
    have hrest := ih (s := { s with next := s.next + 1 }) hfailed (by dsimp only; omega) h
      (by dsimp only; omega)
    have hstep := Arrives.more (StreamReader.nextGroup_take hfailed hlt) hrest
    exact hstep

theorem arrives_closed (hfailed : s.failed = none) (heof : s.eof = true)
    (hclosed : s.closed = true) (hle : s.next ≤ s.asm.groups) :
    ∃ t, Arrives s (s.asm.handOut s.next) .eof t ∧ t.asm = s.asm := by
  refine ⟨{ s with next := s.asm.groups }, ?_, rfl⟩
  have hstop : Arrives { s with next := s.asm.groups } [] .eof
      { s with next := s.asm.groups } := by
    refine .stop ?_
    rw [StreamReader.nextGroup_of_ok (s := { s with next := s.asm.groups }) hfailed,
      StreamReader.nextGroupFrom.eq_def, if_neg (Nat.lt_irrefl _), if_pos heof,
      StreamReader.endOfStream, if_pos hclosed]
  have hall := hstop.hand_out hfailed hle
  rwa [List.append_nil] at hall

theorem arrives_finishOutcome {core : Core} (h : s.Holds core) (hsrc : s.src = [])
    (hnext : s.next = s.asm.groups) (hinv : s.asm.Inv) :
    ∃ t, Arrives s (arrivals core s.next []).groups (arrivals core s.next []).stop t ∧
      t.asm.hostState = s.asm.hostState := by
  obtain ⟨heof, hclosed, hfailed⟩ := h.reading
  have hwait : s.Waiting := ⟨hfailed, by omega, by rw [heof]; exact Bool.false_ne_true⟩
  have hend := StreamReader.nextGroup_end hwait hsrc
  rw [StreamReader.endOfStream, if_neg (by rw [hclosed]; exact Bool.false_ne_true)] at hend
  have hfinish : StreamReader.finishStream { s with eof := true } = s.finishStream := rfl
  rw [hfinish] at hend
  rw [arrivals, StreamReader.finishStream_spec h hnext]
  cases hfin : s.finishStream with
  | error e =>
    rw [hfin] at hend
    have hlen := s.asm.length_groupList
    dsimp only
    rw [List.drop_eq_nil_of_le (by omega)]
    exact ⟨_, .stop hend, rfl⟩
  | ok a =>
    rw [hfin] at hend
    have hfina := StreamReader.finishStream_ok hfin
    have hle : s.next ≤ a.groups := by
      rw [hnext]
      exact hinv.groups_le (Assembler.finish_evolves hinv hfina).ext
    have hclosed' : StreamReader.nextGroup { s with eof := true, closed := true, asm := a } =
        StreamReader.takeGroup { s with eof := true, closed := true, asm := a } := by
      rw [StreamReader.nextGroup_of_ok
        (s := { s with eof := true, closed := true, asm := a }) hfailed,
        StreamReader.nextGroupFrom.eq_def]
      by_cases hlt : s.next < a.groups
      · rw [if_pos hlt]
      · rw [if_neg hlt, if_pos rfl, StreamReader.endOfStream, if_pos rfl, StreamReader.takeGroup,
          if_neg hlt]
    obtain ⟨t, harr, ht⟩ := arrives_closed
      (s := { s with eof := true, closed := true, asm := a }) hfailed rfl rfl hle
    have hstate : a.hostState = s.asm.hostState := Assembler.finish_hostState hfina
    refine ⟨t, ?_, by rw [ht]; exact hstate⟩
    have hout := harr.of_eq (hend.trans hclosed'.symm)
    rw [Assembler.handOut, hstate, h.asm] at hout
    exact hout

/-- **The reader computes the arrivals**: whatever the chunks, successive calls hand out the
groups as they become complete and then report how the stream ended. -/
theorem arrives_arrivals {core : Core} {chunks : List Bytes} (h : s.Holds core)
    (hsrc : s.src = chunks.map fun data => { data }) (hne : ∀ chunk ∈ chunks, chunk ≠ [])
    (hnext : s.next ≤ s.asm.groups) (hinv : s.asm.Inv) :
    ∃ t, Arrives s (arrivals core s.next chunks).groups (arrivals core s.next chunks).stop t ∧
      t.asm.hostState = (arrivals core s.next chunks).final := by
  induction chunks generalizing s core with
  | nil =>
    have hsplit : (arrivals core s.next []).groups =
        s.asm.handOut s.next ++ (arrivals core s.asm.groups []).groups := by
      rw [arrivals, arrivals, Assembler.handOut, h.asm, ← List.map_append]
      obtain ⟨more, hmore⟩ := finishOutcome_prefix core.1.1 (h.asm ▸ hinv)
      have hlen := core.1.2.length_groupList
      rw [← hmore, List.drop_append_of_le_length (by rw [hlen, ← h.asm]; exact hnext),
        List.drop_left' hlen]
    obtain ⟨t, harr, ht⟩ := arrives_finishOutcome (s := { s with next := s.asm.groups })
      ⟨h.scanner, h.position, h.asm, h.unread, h.closed, h.reading⟩ hsrc rfl hinv
    rw [hsplit]
    exact ⟨t, harr.hand_out h.reading.2.2 hnext, ht.trans (by rw [h.asm]; rfl)⟩
  | cons chunk chunks ih =>
    obtain ⟨t, ht⟩ : ∃ t : StreamReader, t = { s with next := s.asm.groups } := ⟨_, rfl⟩
    have hasm : t.asm = s.asm := by rw [ht]
    have hholds : t.Holds core := by
      rw [ht]
      exact ⟨h.scanner, h.position, h.asm, h.unread, h.closed, h.reading⟩
    have htnext : t.next = t.asm.groups := by rw [ht]
    have htsrc : t.src = { data := chunk } :: chunks.map fun data => { data } := by
      rw [ht]
      exact hsrc
    have hinv' : core.1.2.Inv := h.asm ▸ hinv
    obtain ⟨heof, -, hfailed⟩ := hholds.reading
    have hwait : t.Waiting := ⟨hfailed, by omega, by rw [heof]; exact Bool.false_ne_true⟩
    have hpump := StreamReader.pump_spec hholds (hne chunk List.mem_cons_self)
    rw [arrivals]
    cases hread : core.read chunk with
    | error e =>
      rw [hread] at hpump
      have hfail := StreamReader.nextGroup_fail hwait htsrc hpump
      rw [ht] at hfail
      have hall := (Arrives.stop hfail).hand_out h.reading.2.2 hnext
      rw [List.append_nil, h.asm] at hall
      exact ⟨_, hall, by rw [← h.asm]⟩
    | ok core' =>
      rw [hread] at hpump
      obtain ⟨t', hpump, ht', hnext'⟩ := hpump
      have hstep := Core.read_evolves hinv' hread
      have hle : t.asm.groups ≤ t'.asm.groups := by
        rw [hholds.asm, ht'.asm]
        exact hinv'.groups_le hstep.ext
      obtain ⟨u, harr, hu⟩ := ih (s := { t' with src := chunks.map fun data => { data } })
        ⟨ht'.scanner, ht'.position, ht'.asm, ht'.unread, ht'.closed, ht'.reading⟩ rfl
        (fun c hc => hne c (List.mem_cons_of_mem _ hc)) (by dsimp only; omega)
        (ht'.asm ▸ hstep.inv)
      have hnext'' : t'.next = core.1.2.groups := by rw [hnext', htnext, hholds.asm]
      have hgo := harr.of_eq (StreamReader.nextGroup_pump hwait ht'.reading.2.2 htsrc hpump)
      dsimp only at hgo hu ⊢
      rw [hnext''] at hgo hu
      rw [ht] at hgo
      have hall := hgo.hand_out h.reading.2.2 hnext
      rw [h.asm] at hall
      exact ⟨u, hall, hu⟩

theorem arrives_ofChunks {chunks : List Bytes} (hne : ∀ chunk ∈ chunks, chunk ≠ []) :
    ∃ t, Arrives (.ofChunks chunks) (arrivals ((.before, {}), []) 0 chunks).groups
      (arrivals ((.before, {}), []) 0 chunks).stop t ∧
      t.asm.hostState = (arrivals ((.before, {}), []) 0 chunks).final :=
  arrives_arrivals (StreamReader.holds_ofChunks chunks) rfl hne (le_refl _) Assembler.inv_empty

/-- **The reader computes the outcome.** -/
theorem yields_ofChunks {chunks : List Bytes} (hne : ∀ chunk ∈ chunks, chunk ≠ []) :
    Yields (StreamReader.ofChunks chunks) (outcome ((.before, {}), []) chunks).1
      (outcome ((.before, {}), []) chunks).2 := by
  obtain ⟨t, harr, -⟩ := arrives_ofChunks hne
  have hout : (arrivals ((.before, {}), []) 0 chunks).groups.map Prod.fst =
        (outcome ((.before, {}), []) chunks).1 ∧
      (arrivals ((.before, {}), []) 0 chunks).stop = (outcome ((.before, {}), []) chunks).2 :=
    arrivals_outcome chunks Assembler.inv_empty (le_refl _)
  have hy := harr.yields
  rwa [hout.1, hout.2] at hy

theorem Yields.unique {gs gs' : List (List Crossing)} {e e' : NextError} (h : Yields s gs e)
    (h' : Yields s gs' e') : gs = gs' ∧ e = e' := by
  induction h generalizing gs' with
  | stop h =>
    cases h' with
    | stop h' =>
      rw [h] at h'
      cases h'
      exact ⟨rfl, rfl⟩
    | more h' _ =>
      rw [h] at h'
      cases h'
  | more h _ ih =>
    cases h' with
    | stop h' =>
      rw [h] at h'
      cases h'
    | more h' hs' =>
      rw [h] at h'
      cases h'
      obtain ⟨rfl, rfl⟩ := ih hs'
      exact ⟨rfl, rfl⟩

end Boundarylog
