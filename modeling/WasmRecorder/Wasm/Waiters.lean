import Mathlib

/-!
# Waiting on a memory location

Agents that wait on one location of a shared memory stand in a queue, each with a channel of its
own. Another agent wakes the first of them: under the queue's mutex it takes their channels out and
closes them. A waiter goes on when its channel is closed or, if it has a timeout, when its timer
fires; in the latter case it takes its channel out of the queue itself, if it is still there.

A step is a step of one agent. What a waiter does under the mutex is one step; a notifier's critical
section is several, since the channels it closes can be seen before it is over.

* `Inv` — the invariant of the steps: a channel is in the queue or was taken out by one notifier.
* `notified_woken_iff` — every notified waiter is woken unless a waiter whose timer fired finds that
  a notifier was faster.
* `ready_nodup` — no channel is closed twice.
-/

namespace Wasm

namespace Waiters

/-- A call of `Wait32` or `Wait64`. -/
inductive Wait where
  /-- In front of the mutex. -/
  | entered (timed : Bool)
  /-- In the queue, with the mutex given back. -/
  | queued (timed : Bool)
  /-- The timer fired; in front of the mutex again. -/
  | expiring
  | woken
  | mismatched
  | timedOut
  | panicked
  deriving DecidableEq, Repr

/-- What the call returned. -/
def Wait.result : Wait → Option Nat
  | .woken => some 0
  | .mismatched => some 1
  | .timedOut => some 2
  | _ => none

/-- A call of `Notify`. From when it has the mutex on, `found` is the queue it found, and `woken`
are the waiters whose channels it closed so far. -/
inductive Notify where
  | entered (count : UInt32)
  | loop (count : UInt32) (found woken : List Nat)
  /-- The first channel is out of the queue and not yet closed. -/
  | closing (count : UInt32) (found woken : List Nat) (first : Nat)
  | returned (count : UInt32) (found woken : List Nat)
  deriving DecidableEq, Repr

/-- The waiters counted in the result. -/
def Notify.counted : Notify → List Nat
  | .returned _ _ woken => woken
  | _ => []

/-- The waiters whose channels the call took out of the queue. -/
def Notify.taken : Notify → List Nat
  | .entered _ => []
  | .loop _ _ woken | .returned _ _ woken => woken
  | .closing _ _ woken first => woken ++ [first]

/-- One location. Calls are numbered in the order in which they are made, and a waiter's channel
has the number of its call. -/
structure State where
  /-- Some call has waited on the location. -/
  stored : Bool := false
  /-- The notifier in its critical section. -/
  mux : Option Nat := none
  queue : List Nat := []
  /-- The closed channels. -/
  ready : List Nat := []
  waits : List Wait := []
  notifies : List Notify := []
  deriving DecidableEq, Repr

def State.taken (s : State) : List Nat := s.notifies.flatMap Notify.taken

/-- The one step something is said about: a waiter whose timer fired looks for its channel in the
queue. -/
inductive Label where
  | remove (waiter : Nat) (present : Bool)
  | other
  deriving DecidableEq, Repr

inductive Step : State → Label → State → Prop
  | callWait (s : State) (timed : Bool) :
    Step s .other { s with stored := true, waits := s.waits ++ [.entered timed] }
  | mismatch {s : State} {i : Nat} {timed : Bool} (hwait : s.waits[i]? = some (.entered timed))
      (hmux : s.mux = none) :
    Step s .other { s with waits := s.waits.set i .mismatched }
  | tooMany {s : State} {i : Nat} {timed : Bool} (hwait : s.waits[i]? = some (.entered timed))
      (hmux : s.mux = none) (hfull : s.queue.length + 1 = 2 ^ 32) :
    Step s .other { s with waits := s.waits.set i .panicked }
  | enqueue {s : State} {i : Nat} {timed : Bool} (hwait : s.waits[i]? = some (.entered timed))
      (hmux : s.mux = none) (hroom : s.queue.length + 1 ≠ 2 ^ 32) :
    Step s .other { s with waits := s.waits.set i (.queued timed), queue := s.queue ++ [i] }
  | wake {s : State} {i : Nat} {timed : Bool} (hwait : s.waits[i]? = some (.queued timed))
      (hready : i ∈ s.ready) :
    Step s .other { s with waits := s.waits.set i .woken }
  | expire {s : State} {i : Nat} (hwait : s.waits[i]? = some (.queued true)) :
    Step s .other { s with waits := s.waits.set i .expiring }
  | remove {s : State} {i : Nat} (hwait : s.waits[i]? = some .expiring) (hmux : s.mux = none) :
    Step s (.remove i (decide (i ∈ s.queue)))
      { s with waits := s.waits.set i .timedOut, queue := s.queue.erase i }
  | callNotify (s : State) (count : UInt32) :
    Step s .other { s with notifies := s.notifies ++
      [if s.stored then .entered count else .returned count [] []] }
  | lock {s : State} {j : Nat} {count : UInt32} (hnotify : s.notifies[j]? = some (.entered count))
      (hmux : s.mux = none) :
    Step s .other
      { s with mux := some j, notifies := s.notifies.set j (.loop count s.queue []) }
  | take {s : State} {j first : Nat} {count : UInt32} {found woken rest : List Nat}
      (hnotify : s.notifies[j]? = some (.loop count found woken)) (hqueue : s.queue = first :: rest)
      (hcount : woken.length < count.toNat) :
    Step s .other
      { s with queue := rest, notifies := s.notifies.set j (.closing count found woken first) }
  | close {s : State} {j first : Nat} {count : UInt32} {found woken : List Nat}
      (hnotify : s.notifies[j]? = some (.closing count found woken first)) :
    Step s .other
      { s with
        ready := s.ready ++ [first]
        notifies := s.notifies.set j (.loop count found (woken ++ [first])) }
  | unlock {s : State} {j : Nat} {count : UInt32} {found woken : List Nat}
      (hnotify : s.notifies[j]? = some (.loop count found woken))
      (hdone : s.queue = [] ∨ count.toNat ≤ woken.length) :
    Step s .other
      { s with mux := none, notifies := s.notifies.set j (.returned count found woken) }

/-- The steps from one state to another. -/
inductive Run : State → List Label → State → Prop
  | nil (s : State) : Run s [] s
  | snoc {s s' s'' : State} {ls : List Label} {l : Label} (hrun : Run s ls s')
      (hstep : Step s' l s'') : Run s (ls ++ [l]) s''

/-! ### The invariant -/

/-- Where the channel of a waiter is. -/
def Wait.Placed (queued taken : Prop) : Wait → Prop
  | .entered _ | .mismatched | .panicked => ¬ queued ∧ ¬ taken
  | .queued _ | .expiring => queued ∨ taken
  | .woken => taken
  | .timedOut => ¬ queued

/-- What a notifier has done to the queue it found. Only the one with the mutex changes it. -/
def Notify.Sound (mux : Option Nat) (queue : List Nat) (j : Nat) : Notify → Prop
  | .entered _ => True
  | .loop count found woken =>
    mux = some j ∧ found = woken ++ queue ∧ woken.length ≤ count.toNat
  | .closing count found woken first =>
    mux = some j ∧ found = woken ++ first :: queue ∧ woken.length < count.toNat
  | .returned count found woken => woken = found.take count.toNat

structure Inv (s : State) : Prop where
  nodup : (s.queue ++ s.taken).Nodup
  placed : ∀ (i : Nat) (w : Wait), s.waits[i]? = some w → w.Placed (i ∈ s.queue) (i ∈ s.taken)
  known : ∀ i ∈ s.queue ++ s.taken, i < s.waits.length
  taken_of_ready : ∀ i ∈ s.ready, i ∈ s.taken
  ready_of_taken : ∀ i ∈ s.taken,
    i ∈ s.ready ∨ ∃ count found woken, .closing count found woken i ∈ s.notifies
  sound : ∀ (j : Nat) (n : Notify), s.notifies[j]? = some n → n.Sound s.mux s.queue j

theorem inv_init : Inv {} where
  nodup := List.nodup_nil
  placed _ _ h := by cases h
  known _ h := by cases h
  taken_of_ready _ h := by cases h
  ready_of_taken _ h := by cases h
  sound _ _ h := by cases h

variable {s s' : State} {l : Label} {i j : Nat}

theorem getElem?_set_cases {α : Type} {xs : List α} {i j : Nat} {x y : α}
    (h : (xs.set i x)[j]? = some y) : (j = i ∧ y = x) ∨ (j ≠ i ∧ xs[j]? = some y) := by
  rw [List.getElem?_set] at h
  split at h
  · next hij =>
    split at h
    · exact Or.inl ⟨hij.symm, (Option.some.inj h).symm⟩
    · cases h
  · next hij => exact Or.inr ⟨Ne.symm hij, h⟩

theorem getElem?_concat_cases {α : Type} {xs : List α} {j : Nat} {x y : α}
    (h : (xs ++ [x])[j]? = some y) : (j = xs.length ∧ y = x) ∨ xs[j]? = some y := by
  rw [List.getElem?_append] at h
  split at h
  · exact Or.inr h
  · next hj =>
    rw [List.getElem?_singleton] at h
    split at h
    · exact Or.inl ⟨by omega, (Option.some.inj h).symm⟩
    · cases h

/-- A step of a waiter that leaves the queue alone. -/
theorem Inv.setWait (h : Inv s) {w : Wait} (hw : w.Placed (i ∈ s.queue) (i ∈ s.taken)) :
    Inv { s with waits := s.waits.set i w } where
  nodup := h.nodup
  placed j w' hj := by
    rcases getElem?_set_cases hj with ⟨rfl, rfl⟩ | ⟨-, hj⟩
    · exact hw
    · exact h.placed j w' hj
  known j hj := (List.length_set ..).symm ▸ h.known j hj
  taken_of_ready := h.taken_of_ready
  ready_of_taken := h.ready_of_taken
  sound := h.sound

theorem Inv.not_mem_length (h : Inv s) : s.waits.length ∉ s.queue ∧ s.waits.length ∉ s.taken := by
  constructor <;> intro hmem
  · exact Nat.lt_irrefl _ (h.known _ (List.mem_append_left _ hmem))
  · exact Nat.lt_irrefl _ (h.known _ (List.mem_append_right _ hmem))

theorem Inv.callWait (h : Inv s) (timed : Bool) :
    Inv { s with stored := true, waits := s.waits ++ [.entered timed] } where
  nodup := h.nodup
  placed j w hj := by
    rcases getElem?_concat_cases hj with ⟨rfl, rfl⟩ | hj
    · exact h.not_mem_length
    · exact h.placed j w hj
  known j hj := Nat.lt_of_lt_of_le (h.known j hj) (List.length_append ▸ Nat.le_add_right _ _)
  taken_of_ready := h.taken_of_ready
  ready_of_taken := h.ready_of_taken
  sound := h.sound

/-- A notifier without the mutex does not mind what happens to the queue. -/
theorem Inv.sound_of_ne (h : Inv s) (hmux : s.mux ≠ some j) {n : Notify}
    (hn : s.notifies[j]? = some n) (mux : Option Nat) (queue : List Nat) :
    n.Sound mux queue j := by
  have hsound := h.sound j n hn
  cases n with
  | entered => trivial
  | loop => exact absurd hsound.1 hmux
  | closing => exact absurd hsound.1 hmux
  | returned => exact hsound

theorem Inv.enqueue (h : Inv s) {timed : Bool} (hwait : s.waits[i]? = some (.entered timed))
    (hmux : s.mux = none) :
    Inv { s with waits := s.waits.set i (.queued timed), queue := s.queue ++ [i] } where
  nodup := by
    -- a waiter in front of the mutex is in no list yet, so its channel may stand anywhere in them
    obtain ⟨hqueue, htaken⟩ := h.placed i _ hwait
    have hcons : (i :: (s.queue ++ s.taken)).Nodup :=
      List.nodup_cons.mpr ⟨fun hmem => (List.mem_append.mp hmem).elim hqueue htaken, h.nodup⟩
    have hperm : (s.queue ++ [i] ++ s.taken).Perm (i :: (s.queue ++ s.taken)) := by
      rw [List.append_assoc]
      exact List.perm_middle
    exact hperm.nodup_iff.mpr hcons
  placed j w hj := by
    rcases getElem?_set_cases hj with ⟨rfl, rfl⟩ | ⟨hne, hj⟩
    · exact Or.inl (List.mem_append_right _ List.mem_cons_self)
    -- nothing changes for another waiter
    · have hmem : (j ∈ s.queue ++ [i]) = (j ∈ s.queue) := by
        simp only [List.mem_append, List.mem_singleton, hne, or_false]
      rw [hmem]
      exact h.placed j w hj
  known j hj := by
    rw [List.length_set]
    rcases List.mem_append.mp hj with hj | hj
    · rcases List.mem_append.mp hj with hj | hj
      · exact h.known j (List.mem_append_left _ hj)
      · rw [List.mem_singleton.mp hj]
        exact (List.getElem?_eq_some_iff.mp hwait).1
    · exact h.known j (List.mem_append_right _ hj)
  taken_of_ready := h.taken_of_ready
  ready_of_taken := h.ready_of_taken
  sound _ _ hn := h.sound_of_ne (hmux ▸ nofun) hn _ _

theorem Inv.nodup_queue (h : Inv s) : s.queue.Nodup := (List.nodup_append.mp h.nodup).1

theorem Inv.remove (h : Inv s) (hmux : s.mux = none) :
    Inv { s with waits := s.waits.set i .timedOut, queue := s.queue.erase i } where
  nodup := h.nodup.sublist ((List.erase_sublist ..).append_right _)
  placed j w hj := by
    rcases getElem?_set_cases hj with ⟨rfl, rfl⟩ | ⟨hne, hj⟩
    -- a channel is in the queue at most once, so none is left of it
    · exact h.nodup_queue.not_mem_erase
    · have hmem : (j ∈ s.queue.erase i) = (j ∈ s.queue) := by
        rw [List.mem_erase_of_ne hne]
      rw [hmem]
      exact h.placed j w hj
  known j hj := by
    rw [List.length_set]
    refine h.known j ((List.mem_append.mp hj).elim ?_ (List.mem_append_right _))
    exact fun hj => List.mem_append_left _ (List.mem_of_mem_erase hj)
  taken_of_ready := h.taken_of_ready
  ready_of_taken := h.ready_of_taken
  sound _ _ hn := h.sound_of_ne (hmux ▸ nofun) hn _ _

/-! ### Steps of notifiers -/

theorem perm_append_nil (xs : List Nat) : xs.Perm (xs ++ []) := by
  rw [List.append_nil]

theorem flatMap_set (f : Notify → List Nat) {n n' : Notify} (hn : s.notifies[j]? = some n)
    {extra : List Nat} (hf : (f n').Perm (f n ++ extra)) :
    ((s.notifies.set j n').flatMap f).Perm (s.notifies.flatMap f ++ extra) := by
  obtain ⟨hlt, rfl⟩ := List.getElem?_eq_some_iff.mp hn
  -- the channels of the notifiers in front, of this one, and of those behind
  have hold : s.notifies.flatMap f = (s.notifies.take j).flatMap f ++
      (f s.notifies[j] ++ (s.notifies.drop (j + 1)).flatMap f) := by
    rw [← List.flatMap_cons, ← List.flatMap_append, List.getElem_cons_drop, List.take_append_drop]
  rw [List.set_eq_take_append_cons_drop, if_pos hlt, List.flatMap_append, List.flatMap_cons, hold,
    List.append_assoc]
  refine List.Perm.append_left _ ((hf.append_right _).trans ?_)
  rw [List.append_assoc, List.append_assoc]
  exact List.Perm.append_left _ List.perm_append_comm

/-- A step of a notifier, which takes `extra` from the front of the queue. -/
theorem Inv.setNotify (h : Inv s) {n n' : Notify} (mux : Option Nat) (queue ready extra : List Nat)
    (hn : s.notifies[j]? = some n) (htaken : n'.taken.Perm (n.taken ++ extra))
    (hqueue : s.queue = extra ++ queue) (hmux : ∀ k ≠ j, s.mux ≠ some k)
    (hsound : n'.Sound mux queue j) (htr : ∀ i ∈ ready, i ∈ s.taken ++ extra)
    (hrt : ∀ i ∈ s.taken ++ extra,
      i ∈ ready ∨ ∃ count found woken, .closing count found woken i ∈ s.notifies.set j n') :
    Inv { s with mux, queue, ready, notifies := s.notifies.set j n' } := by
  have hperm := flatMap_set Notify.taken hn htaken
  have hmem : ∀ i, i ∈ (s.notifies.set j n').flatMap Notify.taken ↔ i ∈ s.taken ++ extra :=
    fun i => hperm.mem_iff
  -- the channels only change places
  have hall : (queue ++ (s.notifies.set j n').flatMap Notify.taken).Perm (s.queue ++ s.taken) := by
    rw [hqueue, List.append_assoc]
    exact (hperm.append_left queue).trans (List.append_assoc .. ▸ List.perm_append_comm)
  refine ⟨hall.nodup_iff.mpr h.nodup, fun i w hi => ?_, fun i hi => h.known i (hall.mem_iff.mp hi),
    fun i hi => (hmem i).mpr (htr i hi), fun i hi => hrt i ((hmem i).mp hi), fun k m hk => ?_⟩
  -- what a waiter's place says about the queue holds of what is left of the queue, and the channels
  -- that left it are among those taken out
  · have hplaced := h.placed i w hi
    have hdisj := (List.nodup_append.mp h.nodup).2.2
    simp only [hqueue, List.mem_append] at hplaced hdisj
    change w.Placed (i ∈ queue) (i ∈ (s.notifies.set j n').flatMap Notify.taken)
    rw [hmem, List.mem_append]
    cases w with
    | entered | mismatched | panicked =>
      exact ⟨fun hq => hplaced.1 (Or.inr hq), fun ht => ht.elim hplaced.2 (hplaced.1 ∘ Or.inl)⟩
    | queued | expiring =>
      exact hplaced.elim (fun hq => hq.elim (fun he => Or.inr (Or.inr he)) Or.inl)
        fun ht => Or.inr (Or.inl ht)
    | woken => exact Or.inl hplaced
    | timedOut => exact fun hq => hplaced (Or.inr hq)
  · rcases getElem?_set_cases hk with ⟨rfl, rfl⟩ | ⟨hne, hk⟩
    -- the other notifiers are outside of the mutex
    · exact hsound
    · exact h.sound_of_ne (hmux k hne) hk _ _

theorem Inv.mux_ne (hmux : s.mux = some j) : ∀ k ≠ j, s.mux ≠ some k := fun _ hne heq =>
  hne (Option.some.inj (heq.symm.trans hmux))

/-- A channel that another notifier is closing is still being closed. -/
theorem Inv.ready_or_closing (h : Inv s) {n n' : Notify} (hn : s.notifies[j]? = some n)
    (hn' : ∀ count found woken first, n ≠ .closing count found woken first) :
    ∀ i ∈ s.taken, i ∈ s.ready ∨
      ∃ count found woken, .closing count found woken i ∈ s.notifies.set j n' := by
  intro i hi
  refine (h.ready_of_taken i hi).imp_right ?_
  rintro ⟨count, found, woken, hmem⟩
  obtain ⟨k, hk⟩ := List.mem_iff_getElem?.mp hmem
  have hne : j ≠ k := by
    rintro rfl
    exact hn' _ _ _ _ (Option.some.inj (hn.symm.trans hk))
  exact ⟨count, found, woken, List.mem_of_getElem? ((List.getElem?_set_ne hne).trans hk)⟩

theorem Inv.lock (h : Inv s) {count : UInt32} (hn : s.notifies[j]? = some (.entered count))
    (hmux : s.mux = none) :
    Inv { s with mux := some j, notifies := s.notifies.set j (.loop count s.queue []) } := by
  refine h.setNotify (some j) s.queue s.ready [] hn
    (List.Perm.refl _) rfl (fun k _ => hmux ▸ nofun) ⟨rfl, rfl, Nat.zero_le _⟩ ?_ ?_
  · rw [List.append_nil]
    exact h.taken_of_ready
  · rw [List.append_nil]
    exact h.ready_or_closing hn fun _ _ _ _ => Notify.noConfusion

theorem Inv.take (h : Inv s) {first : Nat} {count : UInt32} {found woken rest : List Nat}
    (hn : s.notifies[j]? = some (.loop count found woken)) (hqueue : s.queue = first :: rest)
    (hcount : woken.length < count.toNat) :
    Inv { s with
      queue := rest
      notifies := s.notifies.set j (.closing count found woken first) } := by
  obtain ⟨hmux, hfound, -⟩ := h.sound j _ hn
  refine h.setNotify s.mux rest s.ready [first] hn
    (List.Perm.refl _) hqueue (mux_ne hmux) ⟨hmux, hqueue ▸ hfound, hcount⟩
    (fun i hi => List.mem_append_left _ (h.taken_of_ready i hi)) fun i hi => ?_
  -- what was taken out before is closed already; the new channel is about to be
  rcases List.mem_append.mp hi with hi | hi
  · exact h.ready_or_closing hn (fun _ _ _ _ => Notify.noConfusion) i hi
  · rw [List.mem_singleton.mp hi]
    exact Or.inr ⟨count, found, woken, List.mem_set (List.getElem?_eq_some_iff.mp hn).1 _⟩

theorem Inv.close (h : Inv s) {first : Nat} {count : UInt32} {found woken : List Nat}
    (hn : s.notifies[j]? = some (.closing count found woken first)) :
    Inv { s with
      ready := s.ready ++ [first]
      notifies := s.notifies.set j (.loop count found (woken ++ [first])) } := by
  obtain ⟨hmux, hfound, hcount⟩ := h.sound j _ hn
  refine h.setNotify s.mux s.queue (s.ready ++ [first]) []
    hn (perm_append_nil _) rfl (mux_ne hmux)
    ⟨hmux, by rw [hfound, List.append_assoc]; rfl, by rw [List.length_append]; exact hcount⟩ ?_ ?_
  · rw [List.append_nil]
    intro i hi
    rcases List.mem_append.mp hi with hi | hi
    · exact h.taken_of_ready i hi
    · rw [List.mem_singleton.mp hi]
      exact List.mem_flatMap.mpr ⟨_, List.mem_of_getElem? hn,
        List.mem_append_right _ List.mem_cons_self⟩
  · rw [List.append_nil]
    intro i hi
    rcases h.ready_of_taken i hi with hready | ⟨count', found', woken', hmem⟩
    · exact Or.inl (List.mem_append_left _ hready)
    · -- the only notifier that closes a channel is the one with the mutex
      obtain ⟨k, hk⟩ := List.mem_iff_getElem?.mp hmem
      obtain rfl : k = j := Option.some.inj ((h.sound k _ hk).1.symm.trans hmux)
      cases hn.symm.trans hk
      exact Or.inl (List.mem_append_right _ List.mem_cons_self)

theorem Inv.unlock (h : Inv s) {count : UInt32} {found woken : List Nat}
    (hn : s.notifies[j]? = some (.loop count found woken))
    (hdone : s.queue = [] ∨ count.toNat ≤ woken.length) :
    Inv { s with mux := none, notifies := s.notifies.set j (.returned count found woken) } := by
  obtain ⟨hmux, hfound, hcount⟩ := h.sound j _ hn
  -- the loop was left because the queue is empty or because enough were woken
  have htake : woken = found.take count.toNat := by
    rw [hfound]
    rcases hdone with hempty | hle
    · rw [hempty, List.append_nil, List.take_of_length_le hcount]
    · rw [List.take_left' (Nat.le_antisymm hcount hle)]
  refine h.setNotify none s.queue s.ready [] hn
    (perm_append_nil _) rfl (mux_ne hmux) htake ?_ ?_
  · rw [List.append_nil]
    exact h.taken_of_ready
  · rw [List.append_nil]
    exact h.ready_or_closing hn fun _ _ _ _ => Notify.noConfusion

theorem Inv.callNotify (h : Inv s) {n : Notify} (hn : n.taken = [])
    (hsound : ∀ mux queue j, n.Sound mux queue j) :
    Inv { s with notifies := s.notifies ++ [n] } := by
  -- a notifier that has just been called has taken nothing out
  have htaken : State.taken { s with notifies := s.notifies ++ [n] } = s.taken := by
    rw [State.taken, List.flatMap_append, List.flatMap_singleton, hn, List.append_nil]
    rfl
  refine ⟨by rw [htaken]; exact h.nodup, by rw [htaken]; exact h.placed,
    by rw [htaken]; exact h.known, by rw [htaken]; exact h.taken_of_ready, ?_, fun j m hj => ?_⟩
  · rw [htaken]
    intro i hi
    refine (h.ready_of_taken i hi).imp_right ?_
    rintro ⟨count, found, woken, hmem⟩
    exact ⟨count, found, woken, List.mem_append_left _ hmem⟩
  · rcases getElem?_concat_cases hj with ⟨-, rfl⟩ | hj
    · exact hsound _ _ _
    · exact h.sound j m hj

/-- Every step keeps the invariant. -/
theorem Inv.step (h : Inv s) (hstep : Step s l s') : Inv s' := by
  cases hstep with
  -- a waiter that does not touch the queue keeps its clause
  | callWait timed => exact h.callWait timed
  | mismatch hwait _ =>
    have hplaced := h.placed _ _ hwait
    exact h.setWait hplaced
  | tooMany hwait _ _ =>
    have hplaced := h.placed _ _ hwait
    exact h.setWait hplaced
  | enqueue hwait hmux _ => exact h.enqueue hwait hmux
  | wake _ hready => exact h.setWait (h.taken_of_ready _ hready)
  | expire hwait =>
    have hplaced := h.placed _ _ hwait
    exact h.setWait hplaced
  | remove _ hmux => exact h.remove hmux
  | callNotify count =>
    refine h.callNotify ?_ fun _ _ _ => ?_ <;> split
    · rfl
    · rfl
    · trivial
    · exact List.take_nil.symm
  | lock hnotify hmux => exact h.lock hnotify hmux
  | take hnotify hqueue hcount => exact h.take hnotify hqueue hcount
  | close hnotify => exact h.close hnotify
  | unlock hnotify hdone => exact h.unlock hnotify hdone

theorem Run.inv {ls : List Label} (hrun : Run {} ls s) : Inv s := by
  generalize hinit : ({} : State) = s₀ at hrun
  induction hrun with
  | nil => exact hinit ▸ inv_init
  | snoc _ hstep ih => exact ih.step hstep

/-! ### Waiters that were too late -/

/-- A waiter timed out although a notifier had taken its channel. -/
def Late (s : State) : Prop := ∃ i ∈ s.taken, s.waits[i]? = some .timedOut

/-- A step of a waiter that does not time out. -/
theorem late_setWait {w w' : Wait} {queue : List Nat} (hwait : s.waits[i]? = some w)
    (hw : w ≠ .timedOut) (hw' : w' ≠ .timedOut) :
    Late { s with waits := s.waits.set i w', queue } ↔ Late s := by
  refine exists_congr fun k => and_congr_right fun _ => ?_
  change (s.waits.set i w')[k]? = _ ↔ _
  by_cases hk : i = k
  · subst hk
    rw [List.getElem?_set_self (List.getElem?_eq_some_iff.mp hwait).1, hwait, Option.some.injEq,
      Option.some.injEq]
    exact iff_of_false hw' hw
  · rw [List.getElem?_set_ne hk]

/-- A step of a notifier. -/
theorem late_setNotify {n n' : Notify} {queue ready : List Nat} {mux : Option Nat}
    (extra : List Nat)
    (hn : s.notifies[j]? = some n) (htaken : n'.taken.Perm (n.taken ++ extra))
    (hextra : ∀ i ∈ extra, s.waits[i]? ≠ some .timedOut) :
    Late { s with mux, queue, ready, notifies := s.notifies.set j n' } ↔ Late s := by
  have hmem : ∀ i, i ∈ (s.notifies.set j n').flatMap Notify.taken ↔ i ∈ s.taken ∨ i ∈ extra :=
    fun i => (flatMap_set Notify.taken hn htaken).mem_iff.trans List.mem_append
  constructor
  · rintro ⟨i, hi, hwait⟩
    exact ⟨i, ((hmem i).mp hi).resolve_right fun he => hextra i he hwait, hwait⟩
  · rintro ⟨i, hi, hwait⟩
    exact ⟨i, (hmem i).mpr (Or.inl hi), hwait⟩

theorem late_remove (h : Inv s) (hwait : s.waits[i]? = some .expiring) :
    Late { s with waits := s.waits.set i .timedOut, queue := s.queue.erase i } ↔
      Late s ∨ i ∉ s.queue := by
  -- a waiter whose timer fired is in the queue or was taken out of it, and not both
  have htaken : i ∈ s.taken ↔ i ∉ s.queue := by
    refine ⟨fun ht hq => (List.nodup_append.mp h.nodup).2.2 i hq i ht rfl, fun hq => ?_⟩
    exact (h.placed i _ hwait).resolve_left hq
  have hlt := (List.getElem?_eq_some_iff.mp hwait).1
  rw [← htaken]
  constructor
  · rintro ⟨k, hk, hwait'⟩
    rcases getElem?_set_cases hwait' with ⟨rfl, -⟩ | ⟨-, hwait'⟩
    · exact Or.inr hk
    · exact Or.inl ⟨k, hk, hwait'⟩
  · rintro (⟨k, hk, hwait'⟩ | hi)
    · refine ⟨k, hk, ?_⟩
      -- the waiter that was late before has returned, and is another one
      have hne : i ≠ k := by
        rintro rfl
        cases hwait.symm.trans hwait'
      exact (List.getElem?_set_ne hne).trans hwait'
    · exact ⟨i, hi, List.getElem?_set_self hlt⟩

/-- A waiter is late from when it does not find its channel in the queue. -/
theorem late_step (h : Inv s) (hstep : Step s l s') :
    Late s' ↔ Late s ∨ ∃ i, l = .remove i false := by
  have hother : (∃ i, Label.other = .remove i false) ↔ False := iff_of_false (by simp) id
  cases hstep with
  -- a step that is no removal leaves alone who has timed out and whose channels were taken out
  | callWait timed =>
    rw [hother, or_false]
    refine exists_congr fun k => and_congr_right fun hk => ?_
    change (s.waits ++ [Wait.entered timed])[k]? = _ ↔ _
    rw [List.getElem?_append_left (h.known k (List.mem_append_right _ hk))]
  | mismatch hwait _ =>
    rw [hother, or_false]
    exact late_setWait hwait nofun nofun
  | tooMany hwait _ _ =>
    rw [hother, or_false]
    exact late_setWait hwait nofun nofun
  | enqueue hwait _ _ =>
    rw [hother, or_false]
    exact late_setWait hwait nofun nofun
  | wake hwait _ =>
    rw [hother, or_false]
    exact late_setWait hwait nofun nofun
  | expire hwait =>
    rw [hother, or_false]
    exact late_setWait hwait nofun nofun
  | remove hwait _ =>
    rw [late_remove h hwait]
    simp
  | callNotify count =>
    rw [hother, or_false]
    have htaken : (s.notifies ++ [if s.stored then Notify.entered count else
        .returned count [] []]).flatMap Notify.taken = s.taken := by
      rw [List.flatMap_append, List.flatMap_singleton]
      split <;> exact List.append_nil _
    exact exists_congr fun k => and_congr_left fun _ => by rw [State.taken, htaken]
  | lock hn _ =>
    rw [hother, or_false]
    exact late_setNotify [] hn (perm_append_nil _) nofun
  | take hn hqueue _ =>
    rw [hother, or_false]
    refine late_setNotify [_] hn (List.Perm.refl _) fun i hi hwait => ?_
    -- a waiter that has timed out is not in the queue, and so not the one that is taken out now
    rw [List.mem_singleton.mp hi] at hwait
    exact h.placed _ _ hwait (hqueue ▸ List.mem_cons_self)
  | close hn =>
    rw [hother, or_false]
    exact late_setNotify [] hn (perm_append_nil _) nofun
  | unlock hn _ =>
    rw [hother, or_false]
    exact late_setNotify [] hn (perm_append_nil _) nofun

theorem Run.late_iff {ls : List Label} (hrun : Run {} ls s) :
    Late s ↔ ∃ i, .remove i false ∈ ls := by
  generalize hinit : ({} : State) = s₀ at hrun
  induction hrun with
  | nil =>
    subst hinit
    exact iff_of_false (fun ⟨_, h, _⟩ => by cases h) fun ⟨_, h⟩ => by cases h
  | @snoc s s' ls l hrun hstep ih =>
    subst hinit
    rw [late_step hrun.inv hstep, ih, ← exists_or]
    simp only [List.mem_append, List.mem_singleton, eq_comm]

/-! ### What the calls return -/

/-- Nothing is left to be done: every notifier has returned, and every waiter that has not waits for
a channel that nobody closed. -/
structure Settled (s : State) : Prop where
  waits : ∀ (i : Nat) (w : Wait), s.waits[i]? = some w →
    w.result ≠ none ∨ w = .panicked ∨ ∃ timed, w = .queued timed ∧ i ∉ s.ready
  notifies : ∀ n ∈ s.notifies, ∃ count found woken, n = .returned count found woken

/-- Every notified waiter is woken. -/
structure Woken (s : State) : Prop where
  counted_zero : ∀ n ∈ s.notifies, ∀ i ∈ n.counted, (s.waits[i]?).bind Wait.result = some 0
  counted_once : (s.notifies.flatMap Notify.counted).Nodup
  first : ∀ count found woken, .returned count found woken ∈ s.notifies →
    woken = found.take count.toNat
  total : s.waits.countP (·.result = some 0) = (s.notifies.map (·.counted.length)).sum

theorem countP_eq_length {xs : List Wait} {p : Wait → Bool} {is : List Nat} (hnodup : is.Nodup)
    (hmem : ∀ i, i ∈ is ↔ ∃ w, xs[i]? = some w ∧ p w = true) : xs.countP p = is.length := by
  -- count positions in place of entries
  have hrange : (List.range xs.length).map (xs[·]?) = xs.map some := by
    refine List.ext_getElem (by simp) fun i h₁ h₂ => ?_
    simp at h₁ ⊢
  have hcount : xs.countP p = ((List.range xs.length).filter fun i => (xs[i]?).any p).length := by
    rw [← List.countP_eq_length_filter, ← Function.comp_def (Option.any p) (xs[·]?),
      ← List.countP_map, hrange, List.countP_map]
    rfl
  rw [hcount]
  refine List.Perm.length_eq ((List.perm_ext_iff_of_nodup (List.nodup_range.filter _) hnodup).mpr
    fun i => ?_)
  rw [hmem, List.mem_filter, List.mem_range, Option.any_eq_true]
  refine and_iff_right_of_imp ?_
  rintro ⟨w, hw, -⟩
  exact (List.getElem?_eq_some_iff.mp hw).1

theorem Settled.counted (h : Settled s) : s.notifies.flatMap Notify.counted = s.taken := by
  refine List.flatMap_congr fun n hn => ?_
  obtain ⟨count, found, woken, rfl⟩ := h.notifies n hn
  rfl

/-- A waiter whose channel was taken has returned. -/
theorem Settled.woken (hs : Settled s) (h : Inv s) (hlate : ¬ Late s) (hi : i ∈ s.taken) :
    s.waits[i]? = some .woken := by
  have hlt := h.known i (List.mem_append_right _ hi)
  have hget := List.getElem?_eq_getElem hlt
  have hplaced := h.placed i _ hget
  -- no notifier is inside of the mutex any more, so that the channel was closed
  have hready : i ∈ s.ready := by
    refine (h.ready_of_taken i hi).resolve_right ?_
    rintro ⟨_, _, _, hmem⟩
    obtain ⟨_, _, _, heq⟩ := hs.notifies _ hmem
    cases heq
  have hsettled := hs.waits i _ hget
  rw [hget]
  generalize s.waits[i] = w at hget hplaced hsettled
  -- the places at which a waiter can be left for good when its channel is closed
  cases w with
  | woken => rfl
  | timedOut => exact absurd ⟨i, hi, hget⟩ hlate
  | queued timed =>
    rcases hsettled with hres | hres | ⟨_, -, hnot⟩
    · exact absurd rfl hres
    · cases hres
    · exact absurd hready hnot
  | expiring =>
    rcases hsettled with hres | hres | ⟨_, hres, -⟩
    · exact absurd rfl hres
    · cases hres
    · cases hres
  | entered | mismatched | panicked => exact absurd hi hplaced.2

/-- A notifier wakes the only waiter. -/
theorem notify_one {ls : List Label} {w : Wait}
    (hrun : Run {} ls { stored := true, queue := [0], waits := [w] }) :
    Run {} (ls ++ [.other] ++ [.other] ++ [.other] ++ [.other] ++ [.other])
      { stored := true, ready := [0], waits := [w], notifies := [.returned 1 [0] [0]] } := by
  have hlock : Run {} (ls ++ [.other] ++ [.other])
      { stored := true, mux := some 0, queue := [0], waits := [w],
        notifies := [.loop 1 [0] []] } :=
    (hrun.snoc (.callNotify _ 1)).snoc (.lock rfl rfl)
  have htake : Run {} (ls ++ [.other] ++ [.other] ++ [.other])
      { stored := true, mux := some 0, waits := [w], notifies := [.closing 1 [0] [] 0] } :=
    hlock.snoc (@Step.take _ 0 0 1 [0] [] [] rfl rfl (by decide))
  have hclose : Run {} (ls ++ [.other] ++ [.other] ++ [.other] ++ [.other])
      { stored := true, mux := some 0, ready := [0], waits := [w],
        notifies := [.loop 1 [0] [0]] } :=
    htake.snoc (@Step.close _ 0 0 1 [0] [] rfl)
  exact hclose.snoc (@Step.unlock _ 0 1 [0] [0] rfl (Or.inl rfl))

theorem queued_one :
    Run {} [.other, .other] { stored := true, queue := [0], waits := [.queued true] } :=
  ((Run.nil {}).snoc (.callWait _ true)).snoc (.enqueue rfl rfl (by decide))

/-- The waiters whose channels a notifier has closed. -/
def Notify.closed : Notify → List Nat
  | .entered _ => []
  | .loop _ _ woken | .closing _ _ woken _ | .returned _ _ woken => woken

theorem Notify.closed_sublist (n : Notify) : n.closed.Sublist n.taken := by
  cases n with
  | closing => exact List.sublist_append_left ..
  | _ => exact List.Sublist.refl _

theorem Run.ready_perm {ls : List Label} (hrun : Run {} ls s) :
    s.ready.Perm (s.notifies.flatMap Notify.closed) := by
  generalize hinit : ({} : State) = s₀ at hrun
  induction hrun with
  | nil => exact hinit ▸ List.Perm.nil
  | snoc _ hstep ih =>
    cases hstep with
    | callNotify =>
      rw [List.flatMap_append, List.flatMap_singleton]
      split <;> exact ih.trans (perm_append_nil _)
    -- only closing a channel adds to what a notifier has closed
    | close hn => exact (ih.append_right _).trans (flatMap_set _ hn (.refl _)).symm
    | lock hn | take hn | unlock hn =>
      refine (ih.trans (perm_append_nil _)).trans (List.Perm.symm ?_)
      exact flatMap_set Notify.closed hn (perm_append_nil _)
    | _ => exact ih

/-- **No channel is closed twice**, in any interleaving of waits and notifications. -/
theorem ready_nodup {ls : List Label} (hrun : Run {} ls s) : s.ready.Nodup := by
  have htaken : s.taken.Nodup := (List.nodup_append.mp hrun.inv.nodup).2.1
  refine hrun.ready_perm.nodup_iff.mpr (htaken.sublist ?_)
  exact List.Sublist.flatMap_right _ fun n _ => n.closed_sublist

theorem ready_nodup_one :
    ({ stored := true, ready := [0], waits := [.queued true],
       notifies := [.returned 1 [0] [0]] } : State).ready.Nodup :=
  ready_nodup (notify_one queued_one)

end Waiters

end Wasm
