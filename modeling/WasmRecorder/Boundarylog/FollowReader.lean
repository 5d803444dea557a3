import Mathlib

/-!
# Following a file that grows

A producer appends to a file and then says that it has finished, by a marker that a goroutine of
`openBoundaryStream` waits for to close the channel `done`. Meanwhile a `followReader` reads the file.
When it comes to the end of the file it looks at `done`: if it is still open the reader sleeps and
tries again, and if it is closed it reads once more, since the producer may have written in between.

The three of them are one transition system, whose steps are the appends, the marker, the close, and
each read of the file and look at the channel within a `Read`. So every interleaving is a run
(`Run`); its events are what the producer appends and what `Read` returns.

* `Inv` — what holds in every run: `Inv.step` for one step, `Run.inv` for all.
* `Run.enabled`, `Step.rank_lt` — a `Read` is never stuck, and once the channel is closed each of its
  steps brings it nearer to its end.
* `follow_complete` — **nothing is lost, repeated or cut off**.
-/

namespace Boundarylog

namespace FollowReader

abbrev Bytes := List UInt8

/-- Where the reader is, within a `Read` with a buffer of `n` bytes. -/
inductive Phase where
  | idle
  | called (n : Nat)
  | reading (n : Nat)
  | checking (n : Nat)
  | draining (n : Nat)
  | sleeping (n : Nat)
  deriving DecidableEq, Repr

/-- The file, the marker of the producer, the channel, and the reader. -/
structure State where
  file : Bytes
  marker : Bool
  done : Bool
  offset : Nat
  drained : Bool
  phase : Phase
  deriving DecidableEq, Repr

/-- What can be observed: appends, the end of the producer, the close of the channel, the beginning of
a `Read`, and what it returns. -/
inductive Event where
  | append (bytes : Bytes)
  | finish
  | close
  | call (n : Nat)
  | data (bytes : Bytes)
  | eof
  | error
  | quiet
  deriving DecidableEq, Repr

def init : State := ⟨[], false, false, 0, false, .idle⟩

/-- The next `k` bytes of the file, which the reader returns. -/
def State.take (s : State) (k : Nat) : Bytes := (s.file.drop s.offset).take k

/-- One step of the producer, of the goroutine that waits for the marker, or of the reader. A read of
the file gives some of the bytes that are left, if there are any, or fails. -/
inductive Step : State → Event → State → Prop where
  | append {s : State} (bytes : Bytes) (h : s.marker = false) :
      Step s (.append bytes) { s with file := s.file ++ bytes }
  | finish {s : State} (h : s.marker = false) : Step s .finish { s with marker := true }
  | close {s : State} (h : s.marker = true) (hopen : s.done = false) :
      Step s .close { s with done := true }
  | call {s : State} (n : Nat) (hn : 0 < n) (h : s.phase = .idle) :
      Step s (.call n) { s with phase := .called n }
  | ended {s : State} {n : Nat} (h : s.phase = .called n) (hdrained : s.drained = true) :
      Step s .eof { s with phase := .idle }
  | start {s : State} {n : Nat} (h : s.phase = .called n) (hdrained : s.drained = false) :
      Step s .quiet { s with phase := .reading n }
  | read {s : State} {n : Nat} (k : Nat) (h : s.phase = .reading n) (hk : 0 < k) (hn : k ≤ n)
      (hleft : s.offset + k ≤ s.file.length) :
      Step s (.data (s.take k)) { s with offset := s.offset + k, phase := .idle }
  | readEnd {s : State} {n : Nat} (h : s.phase = .reading n) (hend : s.file.length ≤ s.offset) :
      Step s .quiet { s with phase := .checking n }
  | readError {s : State} {n : Nat} (h : s.phase = .reading n) :
      Step s .error { s with phase := .idle }
  | checkDone {s : State} {n : Nat} (h : s.phase = .checking n) (hdone : s.done = true) :
      Step s .quiet { s with phase := .draining n }
  | checkOpen {s : State} {n : Nat} (h : s.phase = .checking n) (hdone : s.done = false) :
      Step s .quiet { s with phase := .sleeping n }
  | wake {s : State} {n : Nat} (h : s.phase = .sleeping n) :
      Step s .quiet { s with phase := .reading n }
  | drain {s : State} {n : Nat} (k : Nat) (h : s.phase = .draining n) (hk : 0 < k) (hn : k ≤ n)
      (hleft : s.offset + k ≤ s.file.length) :
      Step s (.data (s.take k)) { s with offset := s.offset + k, phase := .idle }
  | drainEnd {s : State} {n : Nat} (h : s.phase = .draining n) (hend : s.file.length ≤ s.offset) :
      Step s .eof { s with drained := true, phase := .idle }
  | drainError {s : State} {n : Nat} (h : s.phase = .draining n) :
      Step s .error { s with phase := .idle }

/-- A run, with its events in order. -/
inductive Run : List Event → State → Prop where
  | nil : Run [] init
  | snoc {events : List Event} {s s' : State} {e : Event} (h : Run events s) (hstep : Step s e s') :
      Run (events ++ [e]) s'

/-- What the producer has appended. -/
def appended (events : List Event) : Bytes :=
  events.flatMap fun e => match e with | .append bytes => bytes | _ => []

/-- What the reader has returned. -/
def returned (events : List Event) : Bytes :=
  events.flatMap fun e => match e with | .data bytes => bytes | _ => []

theorem appended_append (l l' : List Event) : appended (l ++ l') = appended l ++ appended l' :=
  List.flatMap_append

theorem returned_append (l l' : List Event) : returned (l ++ l') = returned l ++ returned l' :=
  List.flatMap_append

/-- A `Read` that has returned. -/
def Event.isResult : Event → Bool
  | .data _ => true
  | .eof => true
  | .error => true
  | _ => false

/-! ### The invariant -/

/-- What holds in every run. -/
structure Inv (events : List Event) (s : State) : Prop where
  file : appended events = s.file
  returned : FollowReader.returned events = s.file.take s.offset
  offset : s.offset ≤ s.file.length
  marker : s.done = true → s.marker = true
  close : .close ∈ events ↔ s.done = true
  draining : ∀ n, s.phase = .draining n → s.done = true
  drained : s.drained = true → s.done = true ∧ s.offset = s.file.length
  rests : s.drained = true → s.phase = .idle ∨ ∃ n, s.phase = .called n
  eof : .eof ∈ events ↔ s.drained = true

theorem inv_init : Inv [] init where
  file := rfl
  returned := rfl
  offset := Nat.le_refl 0
  marker h := by cases h
  close := iff_of_false List.not_mem_nil Bool.false_ne_true
  draining _ h := by cases h
  drained h := by cases h
  rests h := by cases h
  eof := iff_of_false List.not_mem_nil Bool.false_ne_true

section Invariant

variable {events : List Event} {s s' : State} {e : Event}

theorem mem_concat {e' : Event} (he : e ≠ e') : e' ∈ events ++ [e] ↔ e' ∈ events := by
  rw [List.mem_append, List.mem_singleton]
  exact ⟨fun hor => hor.resolve_right he.symm, .inl⟩

/-- A reader in the middle of a `Read` is not one that has drained the file. -/
theorem Inv.not_drained (h : Inv events s) {p : Phase} (hphase : s.phase = p) (hidle : p ≠ .idle)
    (hcalled : ∀ n, p ≠ .called n) : s.drained = false := by
  cases hdrained : s.drained with
  | false => rfl
  | true =>
    rcases h.rests hdrained with hrest | ⟨n, hrest⟩
    · exact absurd (hphase.symm.trans hrest) hidle
    · exact absurd (hphase.symm.trans hrest) (hcalled n)

theorem Inv.move (h : Inv events s) {p : Phase} (happended : appended [e] = [])
    (hreturned : FollowReader.returned [e] = []) (hclose : e = .close → s.done = true)
    (heof : e = .eof → s.drained = true)
    (hdraining : ∀ n, p = .draining n → s.done = true)
    (hrests : s.drained = true → p = .idle ∨ ∃ n, p = .called n) :
    Inv (events ++ [e]) { s with phase := p } where
  file := by rw [appended_append, happended, List.append_nil]; exact h.file
  returned := by rw [returned_append, hreturned, List.append_nil]; exact h.returned
  offset := h.offset
  marker := h.marker
  close := by
    rw [List.mem_append, List.mem_singleton, h.close]
    exact ⟨fun hor => hor.elim id fun heq => hclose heq.symm, .inl⟩
  draining := hdraining
  drained := h.drained
  rests := hrests
  eof := by
    rw [List.mem_append, List.mem_singleton, h.eof]
    exact ⟨fun hor => hor.elim id fun heq => heof heq.symm, .inl⟩

theorem Inv.deliver (h : Inv events s) {k : Nat} (hleft : s.offset + k ≤ s.file.length)
    (hdrained : s.drained = false) :
    Inv (events ++ [.data (s.take k)]) { s with offset := s.offset + k, phase := .idle } where
  file := by
    rw [appended_append]
    exact (List.append_nil _).trans h.file
  returned := by
    change FollowReader.returned _ = s.file.take (s.offset + k)
    rw [returned_append, h.returned, List.take_add]
    exact congrArg _ (List.append_nil _)
  offset := hleft
  marker := h.marker
  close := (mem_concat fun heq => by cases heq).trans h.close
  draining _ hphase := by cases hphase
  drained hd := by rw [hdrained] at hd; cases hd
  rests _ := .inl rfl
  eof := (mem_concat fun heq => by cases heq).trans h.eof

/-- **One step.** -/
theorem Inv.step (h : Inv events s) (hstep : Step s e s') : Inv (events ++ [e]) s' := by
  have hbusy : ∀ {p q : Phase}, s.phase = q → q ≠ .idle → (∀ n, q ≠ .called n) →
      s.drained = true → p = .idle ∨ ∃ n, p = .called n := by
    intro p q hphase hidle hcalled hdrained
    rw [h.not_drained hphase hidle hcalled] at hdrained
    cases hdrained
  cases hstep with
  | append bytes hmarker =>
    -- the channel is still open
    have hopen : ¬ s.done = true := fun hdone => by
      rw [h.marker hdone] at hmarker
      cases hmarker
    refine ⟨?_, ?_, ?_, h.marker,
      (mem_concat fun heq => by cases heq).trans h.close, h.draining,
      fun hdrained => absurd (h.drained hdrained).1 hopen, h.rests, ?_⟩
    · rw [appended_append, h.file]
      exact congrArg _ (List.append_nil _)
    · change _ = (s.file ++ bytes).take s.offset
      rw [returned_append, h.returned, List.take_append_of_le_length h.offset]
      exact List.append_nil _
    · change s.offset ≤ (s.file ++ bytes).length
      rw [List.length_append]
      exact Nat.le_add_right_of_le h.offset
    · exact (mem_concat fun heq => by cases heq).trans h.eof
  | finish hmarker =>
    have hmove := h.move (p := s.phase) (e := .finish) rfl rfl nofun nofun h.draining h.rests
    exact ⟨hmove.file, hmove.returned, hmove.offset, fun _ => rfl, hmove.close, hmove.draining,
      hmove.drained, hmove.rests, hmove.eof⟩
  | close hmarker hopen =>
    refine ⟨?_, ?_, h.offset, fun _ => hmarker,
      iff_of_true (List.mem_append_right _ List.mem_cons_self) rfl, fun _ _ => rfl,
      fun hdrained => ⟨rfl, (h.drained hdrained).2⟩, h.rests,
      (mem_concat fun heq => by cases heq).trans h.eof⟩
    · rw [appended_append]
      exact (List.append_nil _).trans h.file
    · rw [returned_append]
      exact (List.append_nil _).trans h.returned
  | call n hn hphase =>
    exact h.move rfl rfl nofun nofun nofun fun _ => .inr ⟨n, rfl⟩
  | ended hphase hdrained =>
    exact h.move rfl rfl nofun (fun _ => hdrained) nofun fun _ => .inl rfl
  | start hphase hdrained =>
    exact h.move rfl rfl nofun nofun nofun fun hd => by
      rw [hdrained] at hd
      cases hd
  | read k hphase hk hn hleft =>
    exact h.deliver hleft (h.not_drained hphase nofun nofun)
  | readEnd hphase hend =>
    exact h.move rfl rfl nofun nofun nofun (hbusy hphase nofun nofun)
  | readError hphase =>
    exact h.move rfl rfl nofun nofun nofun fun _ => .inl rfl
  | checkDone hphase hdone =>
    exact h.move rfl rfl nofun nofun (fun _ _ => hdone) (hbusy hphase nofun nofun)
  | checkOpen hphase hdone =>
    exact h.move rfl rfl nofun nofun nofun (hbusy hphase nofun nofun)
  | wake hphase =>
    exact h.move rfl rfl nofun nofun nofun (hbusy hphase nofun nofun)
  | drain k hphase hk hn hleft =>
    exact h.deliver hleft (h.not_drained hphase nofun nofun)
  | @drainEnd n hphase hend =>
    -- the file was read to its end after the channel had been closed
    have hdone := h.draining n hphase
    refine ⟨?_, ?_, h.offset, h.marker, (mem_concat fun heq => by cases heq).trans h.close,
      nofun, fun _ => ⟨hdone, Nat.le_antisymm h.offset hend⟩, fun _ => .inl rfl, ?_⟩
    · rw [appended_append]
      exact (List.append_nil _).trans h.file
    · rw [returned_append]
      exact (List.append_nil _).trans h.returned
    · exact iff_of_true (List.mem_append_right _ List.mem_cons_self) rfl
  | drainError hphase =>
    exact h.move rfl rfl nofun nofun nofun fun _ => .inl rfl

/-- **Every run.** -/
theorem Run.inv (h : Run events s) : Inv events s := by
  induction h with
  | nil => exact inv_init
  | snoc h hstep ih => exact ih.step hstep

end Invariant

/-! ### Every `Read` comes to an end -/

/-- How many steps a `Read` may still take once the channel is closed. -/
def Phase.rank : Phase → Nat
  | .idle => 0
  | .draining _ => 1
  | .checking _ => 2
  | .reading _ => 3
  | .called _ => 4
  | .sleeping _ => 4

/-- A step of a `Read`: neither its beginning nor a step of another process. -/
def Event.ofReader : Event → Bool
  | .append _ => false
  | .finish => false
  | .close => false
  | .call _ => false
  | _ => true

/-- **Once the channel is closed, a `Read` comes to an end**: each of its steps takes it to a lower
rank, since it does not go to sleep any more. -/
theorem Step.rank_lt {s s' : State} {e : Event} (h : Step s e s') (hdone : s.done = true)
    (hreader : e.ofReader = true) : s'.phase.rank < s.phase.rank := by
  cases h with
  | append bytes h => cases hreader
  | finish h => cases hreader
  | close h hopen => cases hreader
  | call n hn h => cases hreader
  | ended h hdrained => rw [h]; simp [Phase.rank]
  | start h hdrained => rw [h]; simp [Phase.rank]
  | read k h hk hn hleft => rw [h]; simp [Phase.rank]
  | readEnd h hend => rw [h]; simp [Phase.rank]
  | readError h => rw [h]; simp [Phase.rank]
  | checkDone h hdone => rw [h]; simp [Phase.rank]
  | checkOpen h hopen => rw [hdone] at hopen; cases hopen
  | wake h => rw [h]; simp [Phase.rank]
  | drain k h hk hn hleft => rw [h]; simp [Phase.rank]
  | drainEnd h hend => rw [h]; simp [Phase.rank]
  | drainError h => rw [h]; simp [Phase.rank]

/-- The size of the buffer of a `Read` that is going on. -/
def Phase.buffer : Phase → Option Nat
  | .idle => none
  | .called n | .reading n | .checking n | .draining n | .sleeping n => some n

section Enabled

variable {events : List Event} {s : State}

/-- No buffer is empty, so that a read of the file can give a byte if one is left. -/
theorem Run.buffer_pos (h : Run events s) : ∀ n, s.phase.buffer = some n → 0 < n := by
  induction h with
  | nil => exact fun n hn => by cases hn
  | snoc h hstep ih =>
    intro n hn
    cases hstep with
    | append _ _ => exact ih n hn
    | finish _ => exact ih n hn
    | close _ _ => exact ih n hn
    | call m hm _ => cases hn; exact hm
    | start hphase _ => exact ih n (by rw [hphase]; exact hn)
    | readEnd hphase _ => exact ih n (by rw [hphase]; exact hn)
    | checkDone hphase _ => exact ih n (by rw [hphase]; exact hn)
    | checkOpen hphase _ => exact ih n (by rw [hphase]; exact hn)
    | wake hphase => exact ih n (by rw [hphase]; exact hn)
    | _ => cases hn

/-- **A `Read` is never stuck**: it has a step, and one that is not a failure of the file. -/
theorem Run.enabled (h : Run events s) (hbusy : s.phase ≠ .idle) :
    ∃ e s', Step s e s' ∧ e.ofReader = true ∧ e ≠ .error := by
  cases hphase : s.phase with
  | idle => exact absurd hphase hbusy
  | called n =>
    cases hdrained : s.drained with
    | true => exact ⟨_, _, .ended hphase hdrained, rfl, nofun⟩
    | false => exact ⟨_, _, .start hphase hdrained, rfl, nofun⟩
  | reading n =>
    rcases Nat.lt_or_ge s.offset s.file.length with hlt | hge
    · have hn := h.buffer_pos n (by rw [hphase]; rfl)
      exact ⟨_, _, .read 1 hphase Nat.one_pos hn hlt, rfl, nofun⟩
    · exact ⟨_, _, .readEnd hphase hge, rfl, nofun⟩
  | checking n =>
    cases hdone : s.done with
    | true => exact ⟨_, _, .checkDone hphase hdone, rfl, nofun⟩
    | false => exact ⟨_, _, .checkOpen hphase hdone, rfl, nofun⟩
  | draining n =>
    rcases Nat.lt_or_ge s.offset s.file.length with hlt | hge
    · have hn := h.buffer_pos n (by rw [hphase]; rfl)
      exact ⟨_, _, .drain 1 hphase Nat.one_pos hn hlt, rfl, nofun⟩
    · exact ⟨_, _, .drainEnd hphase hge, rfl, nofun⟩
  | sleeping n => exact ⟨_, _, .wake hphase, rfl, nofun⟩

/-- A `Read` that is called behind an `io.EOF` returns another one, and can do nothing else. -/
theorem Inv.eof_only (h : Inv events s) (heof : .eof ∈ events) {n : Nat}
    (hcalled : s.phase = .called n) (e : Event) (s' : State) :
    Step s e s' ∧ e.ofReader = true ↔ e = .eof ∧ s' = { s with phase := .idle } := by
  have hdrained := h.eof.mp heof
  constructor
  · rintro ⟨hstep, hreader⟩
    cases hstep with
    | append _ _ => cases hreader
    | finish _ => cases hreader
    | close _ _ => cases hreader
    | call _ _ _ => cases hreader
    | ended _ _ => exact ⟨rfl, rfl⟩
    | start _ hopen => rw [hdrained] at hopen; cases hopen
    | read _ hphase _ _ _ => rw [hcalled] at hphase; cases hphase
    | readEnd hphase _ => rw [hcalled] at hphase; cases hphase
    | readError hphase => rw [hcalled] at hphase; cases hphase
    | checkDone hphase _ => rw [hcalled] at hphase; cases hphase
    | checkOpen hphase _ => rw [hcalled] at hphase; cases hphase
    | wake hphase => rw [hcalled] at hphase; cases hphase
    | drain _ hphase _ _ _ => rw [hcalled] at hphase; cases hphase
    | drainEnd hphase _ => rw [hcalled] at hphase; cases hphase
    | drainError hphase => rw [hcalled] at hphase; cases hphase
  · rintro ⟨rfl, rfl⟩
    exact ⟨.ended hcalled hdrained, rfl⟩

end Enabled

/-! ### Nothing is lost -/

section Complete

variable {events before after : List Event} {s : State}

theorem Run.split {e : Event} (h : Run (before ++ e :: after) s) :
    ∃ s₁ s₂, Run before s₁ ∧ Step s₁ e s₂ ∧ Run (before ++ [e]) s₂ := by
  generalize hevents : before ++ e :: after = events at h
  induction h generalizing after with
  | nil => simp at hevents
  | @snoc events s₁ s₂ e' h hstep ih =>
    rcases List.eq_nil_or_concat' after with rfl | ⟨front, last, rfl⟩
    · obtain ⟨rfl, heq⟩ := List.append_inj' hevents rfl
      cases heq
      exact ⟨s₁, s₂, h, hstep, .snoc h hstep⟩
    · have hfront : before ++ e :: front = events := by
        rw [← List.cons_append, ← List.append_assoc] at hevents
        exact (List.append_inj' hevents rfl).1
      exact ih hfront

theorem Run.at_eof (h : Run (before ++ .eof :: after) s) :
    .close ∈ before ∧ returned before = appended before := by
  obtain ⟨s₁, s₂, hrun, hstep, -⟩ := h.split
  have hinv := hrun.inv
  have hend : s₁.done = true ∧ s₁.offset = s₁.file.length := by
    cases hstep with
    | ended hphase hdrained => exact hinv.drained hdrained
    | drainEnd hphase hend => exact ⟨hinv.draining _ hphase, Nat.le_antisymm hinv.offset hend⟩
  refine ⟨hinv.close.mpr hend.1, ?_⟩
  rw [hinv.returned, hinv.file, hend.2, List.take_length]

theorem Run.appended_eq (h : Run events s) (hbefore : before <+: events) (hclose : .close ∈ before) :
    appended events = appended before := by
  induction h with
  | nil =>
    rw [List.prefix_nil.mp hbefore] at hclose
    cases hclose
  | @snoc events s₁ s₂ e h hstep ih =>
    rcases List.prefix_concat_iff.mp hbefore with rfl | hbefore
    · rfl
    · have hdone := h.inv.close.mp (hbefore.subset hclose)
      have hquiet : appended [e] = [] := by
        cases hstep with
        | append bytes hmarker =>
          rw [h.inv.marker hdone] at hmarker
          cases hmarker
        | _ => rfl
      rw [appended_append, hquiet, List.append_nil, ih hbefore]

theorem Run.after_eof (h : Run events s) (hevents : events = before ++ .eof :: after) :
    ∀ e ∈ after, e.isResult = true → e = .eof := by
  intro e he hresult
  obtain ⟨l₁, l₂, rfl⟩ := List.append_of_mem he
  rw [hevents, ← List.cons_append, ← List.append_assoc] at h
  obtain ⟨s₁, s₂, hrun, hstep, -⟩ := h.split
  have hinv := hrun.inv
  have hdrained : s₁.drained = true :=
    hinv.eof.mp (List.mem_append_right _ List.mem_cons_self)
  have hphase := hinv.rests hdrained
  cases hstep with
  | ended _ _ => rfl
  | drainEnd _ _ => rfl
  | read k hread hk hn hleft =>
    rw [hread] at hphase
    rcases hphase with hphase | ⟨n, hphase⟩ <;> cases hphase
  | drain k hdrain hk hn hleft =>
    rw [hdrain] at hphase
    rcases hphase with hphase | ⟨n, hphase⟩ <;> cases hphase
  | readError hread =>
    rw [hread] at hphase
    rcases hphase with hphase | ⟨n, hphase⟩ <;> cases hphase
  | drainError hdrain =>
    rw [hdrain] at hphase
    rcases hphase with hphase | ⟨n, hphase⟩ <;> cases hphase
  | _ => cases hresult

/-- A `Read` that has returned bytes. -/
def Event.isData : Event → Bool
  | .data _ => true
  | _ => false

theorem Run.data_le (h : Run events s) : events.countP Event.isData ≤ (returned events).length := by
  induction h with
  | nil => exact Nat.le_refl 0
  | @snoc events s₁ s₂ e h hstep ih =>
    have hone : [e].countP Event.isData ≤ (returned [e]).length := by
      have htake : ∀ k, 0 < k → s₁.offset + k ≤ s₁.file.length →
          1 ≤ (returned [.data (s₁.take k)]).length := by
        intro k hk hleft
        change 1 ≤ ((s₁.file.drop s₁.offset).take k ++ []).length
        rw [List.append_nil, List.length_take, List.length_drop]
        omega
      cases hstep with
      | read k hphase hk hn hleft => exact htake k hk hleft
      | drain k hphase hk hn hleft => exact htake k hk hleft
      | _ => exact Nat.zero_le _
    rw [List.countP_append, returned_append, List.length_append]
    exact Nat.add_le_add ih hone

/-- **Following a file that grows loses nothing.** In every run, no `Read` returns `io.EOF` before the
channel is closed; what was returned up to the first `io.EOF` is what the producer has appended; and
from then on every `Read` returns `io.EOF`, which is the one step that it can take. It comes to that:
a `Read` always has a step, once the channel is closed each of them brings it nearer to its end, and no
more `Read`s than there are bytes return any. -/
theorem follow_complete (h : Run events s) :
    (∀ before after, events = before ++ .eof :: after →
      .close ∈ before ∧ (.eof ∉ before → returned before = appended events) ∧
        ∀ e ∈ after, e.isResult = true → e = .eof) ∧
    (.eof ∈ events → ∀ n, s.phase = .called n → ∀ e s',
      Step s e s' ∧ e.ofReader = true ↔ e = .eof ∧ s' = { s with phase := .idle }) ∧
    (s.phase ≠ .idle → ∃ e s', Step s e s' ∧ e.ofReader = true ∧ e ≠ .error) ∧
    events.countP Event.isData ≤ (appended events).length ∧
    (s.done = true → ∀ e s', Step s e s' → e.ofReader = true → s'.phase.rank < s.phase.rank) := by
  refine ⟨fun before after hevents => ?_, fun heof n hcalled => h.inv.eof_only heof hcalled,
    h.enabled, ?_, fun hdone e s' hstep => hstep.rank_lt hdone⟩
  · obtain ⟨hclose, hall⟩ := (hevents ▸ h).at_eof
    refine ⟨hclose, fun _ => ?_, h.after_eof hevents⟩
    rw [hall, ← h.appended_eq (hevents ▸ List.prefix_append _ _) hclose]
  · refine Nat.le_trans h.data_le ?_
    rw [h.inv.returned, h.inv.file, List.length_take]
    exact Nat.min_le_right _ _

/-- The producer writes again between the reader's read and its look at the channel, and behind the
`io.EOF` there is one more `Read`. -/
theorem follow_complete_race : ∃ events s, Run events s ∧
    events = [.append [1], .call 4, .quiet, .data [1], .call 4, .quiet, .quiet, .append [2], .finish,
      .close, .quiet, .data [2], .call 4, .quiet, .quiet, .quiet, .eof, .call 4] ∧
    returned events = appended events ∧
    (∀ before after, events = before ++ .eof :: after → .close ∈ before) ∧
    ∃ s', Step s .eof s' := by
  have h₁ := Run.snoc (.nil : Run [] init) (.append [1] rfl)
  have h₂ := (h₁.snoc (.call 4 (by decide) rfl)).snoc (.start rfl rfl)
  have h₃ := h₂.snoc (.read 1 rfl (by decide) (by decide) (by decide))
  have h₄ := ((h₃.snoc (.call 4 (by decide) rfl)).snoc (.start rfl rfl)).snoc (.readEnd rfl (by decide))
  have h₅ := ((h₄.snoc (.append [2] rfl)).snoc (.finish rfl)).snoc (.close rfl rfl)
  have h₆ := (h₅.snoc (.checkDone rfl rfl)).snoc (.drain 1 rfl (by decide) (by decide) (by decide))
  have h₇ := ((h₆.snoc (.call 4 (by decide) rfl)).snoc (.start rfl rfl)).snoc (.readEnd rfl (by decide))
  have h₈ := (h₇.snoc (.checkDone rfl rfl)).snoc (.drainEnd rfl (by decide))
  have h₉ := h₈.snoc (.call 4 (by decide) rfl)
  obtain ⟨hclosed, heof, -⟩ := follow_complete h₉
  exact ⟨_, _, h₉, rfl, rfl, fun before after hevents => (hclosed before after hevents).1,
    _, ((heof (by decide) 4 rfl .eof _).mpr ⟨rfl, rfl⟩).1⟩

end Complete

end FollowReader

end Boundarylog
