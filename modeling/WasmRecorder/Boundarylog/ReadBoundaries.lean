import WasmRecorder.Boundarylog.StreamAgreement

/-!
# Where the reads are cut

What a stream reader yields should not depend on how its source cuts the bytes into reads.
It does in two situations, and in no other:

* a faulty byte shares a read with call groups completed before it. The read fails as a
  whole, and the groups it completed are never handed out;
* text after the closing bracket shares the last read with the bracket. It is then never
  examined.

The definitions here classify a text by its first fault (`fate`), and `sameOutcome_iff` says
exactly when two ways of cutting it have the same outcome.
-/

namespace Boundarylog

open Fallible Json Json.ArrayLexer

/-! ### Kinds of outcome -/

inductive OutcomeKind where
  | eof
  | truncation (kind : TruncationKind) (groups : Nat)
  | other
  deriving DecidableEq, Repr

def NextError.outcomeKind : NextError → OutcomeKind
  | .eof => .eof
  | .failed (.truncation t) => .truncation t.kind t.groups
  | .failed _ => .other

/-- Two ways of cutting a stream into reads yield the same groups and then the same kind of
outcome. -/
def SameOutcome (chunks chunks' : List Bytes) : Prop :=
  ∃ gs e e', Yields (.ofChunks chunks) gs e ∧ Yields (.ofChunks chunks') gs e' ∧
    e.outcomeKind = e'.outcomeKind

/-! ### The fate of a text -/

/-- What is wrong with a text, if anything. -/
inductive Fate where
  /-- Nothing up to its end. -/
  | sound
  /-- The byte at this position, before the array is closed. -/
  | fault (n : Nat)
  /-- The array is closed at this position, leaving this assembler, and something other than
  separators follows. -/
  | trailing (n : Nat) (a : Assembler)
  deriving DecidableEq, Repr

/-- The fate of a text read from position `n` on. -/
def fateFrom (st : Position × Assembler) (n : Nat) : Bytes → Fate
  | [] => .sound
  | c :: cs =>
    match readByte st c with
    | .error _ => .fault n
    | .ok st' =>
      if st'.1 = .after then if cs.all isSeparator then .sound else .trailing n st'.2
      else fateFrom st' (n + 1) cs

def fate (b : Bytes) : Fate := fateFrom (.before, {}) 0 b

/-- The number of call groups complete after a text. -/
def groupsAfter (b : Bytes) : Nat :=
  match feed readByte (.before, {}) b with
  | .ok st => st.2.groups
  | .error _ => 0

/-- The read that holds the byte at position `n` is the last one. -/
def HeldByLast (n : Nat) (chunks : List Bytes) : Prop :=
  chunks.length = (chunksBefore n chunks).length + 1

/-- When the cuts do not show: nothing is wrong with the text; or the faulty byte's read
begins, in both, after the same number of complete groups; or text follows the closing
bracket and the bracket is in the last read of both or of neither, or closing the
assembler fails in the way trailing text does. -/
def SameFate (chunks chunks' : List Bytes) : Prop :=
  match fate chunks.flatten with
  | .sound => True
  | .fault n => groupsAfter (chunksBefore n chunks).flatten =
      groupsAfter (chunksBefore n chunks').flatten
  | .trailing n a => (HeldByLast n chunks ↔ HeldByLast n chunks') ∨
      (a.openCrossings = 0 ∧ ∃ e, a.finish = .error e)

theorem fateFrom_spec {st : Position × Assembler} (hst : st.1 ≠ .after) (b : Bytes) (n : Nat) :
    match fateFrom st n b with
    | .sound => ∃ st', feed readByte st b = .ok st'
    | .fault k => ∃ b₁ c b₂ st₁ e, b = b₁ ++ c :: b₂ ∧ k = n + b₁.length ∧
        feed readByte st b₁ = .ok st₁ ∧ st₁.1 ≠ .after ∧ readByte st₁ c = .error e
    | .trailing k a => ∃ b₁ c b₂ st₁ st', b = b₁ ++ c :: b₂ ∧ k = n + b₁.length ∧
        feed readByte st b₁ = .ok st₁ ∧ st₁.1 ≠ .after ∧ readByte st₁ c = .ok st' ∧
        st'.1 = .after ∧ st'.2 = a ∧ b₂.all isSeparator = false := by
  induction b generalizing st n with
  | nil => exact ⟨st, rfl⟩
  | cons c b ih =>
    rw [fateFrom]
    cases hc : readByte st c with
    | error e => exact ⟨[], c, b, st, e, rfl, rfl, rfl, hst, hc⟩
    | ok st' =>
      dsimp only
      by_cases hafter : st'.1 = .after
      · rw [if_pos hafter]
        cases hsep : b.all isSeparator with
        | true =>
          refine ⟨st', ?_⟩
          obtain ⟨p, a⟩ := st'
          cases hafter
          rw [feed_cons_of_ok hc, feed_separators hsep (Or.inr rfl)]
        | false => exact ⟨[], c, b, st, st', rfl, rfl, rfl, hst, hc, hafter, rfl, hsep⟩
      · rw [if_neg hafter]
        have hrec := ih hafter (n + 1)
        cases hfate : fateFrom st' (n + 1) b with
        | sound =>
          rw [hfate] at hrec
          obtain ⟨st'', h⟩ := hrec
          exact ⟨st'', (feed_cons_of_ok hc).trans h⟩
        | fault k =>
          rw [hfate] at hrec
          obtain ⟨b₁, c', b₂, st₁, e, rfl, rfl, h, hopen, hbad⟩ := hrec
          exact ⟨c :: b₁, c', b₂, st₁, e, rfl, by rw [List.length_cons]; omega,
            (feed_cons_of_ok hc).trans h, hopen, hbad⟩
        | trailing k a =>
          rw [hfate] at hrec
          obtain ⟨b₁, c', b₂, st₁, st'', rfl, rfl, h, hopen, hclose, hrest⟩ := hrec
          exact ⟨c :: b₁, c', b₂, st₁, st'', rfl, by rw [List.length_cons]; omega,
            (feed_cons_of_ok hc).trans h, hopen, hclose, hrest⟩

theorem fate_spec (b : Bytes) :
    match fate b with
    | .sound => ∃ st', feed readByte (.before, {}) b = .ok st'
    | .fault n => ∃ b₁ c b₂ st₁ e, b = b₁ ++ c :: b₂ ∧ n = b₁.length ∧
        feed readByte (.before, {}) b₁ = .ok st₁ ∧ st₁.1 ≠ .after ∧ readByte st₁ c = .error e
    | .trailing n a => ∃ b₁ c b₂ st₁ st', b = b₁ ++ c :: b₂ ∧ n = b₁.length ∧
        feed readByte (.before, {}) b₁ = .ok st₁ ∧ st₁.1 ≠ .after ∧ readByte st₁ c = .ok st' ∧
        st'.1 = .after ∧ st'.2 = a ∧ b₂.all isSeparator = false := by
  have hbefore : (Position.before, ({} : Assembler)).1 ≠ .after := nofun
  have h := fateFrom_spec hbefore b 0
  simp only [Nat.zero_add] at h
  exact h

/-! ### The outcome of each fate -/

section Outcomes

variable {chunks : List Bytes} {b₁ b₂ : Bytes} {c : UInt8} {st₁ st' : Position × Assembler}

/-- A fault before the array closes: the groups are those complete before the read that
holds the faulty byte. -/
theorem outcome_of_fault {e : StreamError} (hflat : chunks.flatten = b₁ ++ c :: b₂)
    (h : feed readByte (.before, {}) b₁ = .ok st₁) (hopen : st₁.1 ≠ .after)
    (hbad : readByte st₁ c = .error e) :
    ∃ st₀ : Position × Assembler, outcome ((.before, {}), []) chunks =
        (st₀.2.groupList, .failed e) ∧
      groupsAfter (chunksBefore b₁.length chunks).flatten = st₀.2.groups ∧
      st₀.2.groupList <+: st₁.2.groupList := by
  obtain ⟨st₀, chunk, rest, hsplit, hfeed, hread, hfail⟩ := readChunks_error hflat h hopen hbad
  refine ⟨st₀, ?_, ?_, ?_⟩
  · rw [hsplit, outcome_of_failure hread hfail]
  · rw [groupsAfter, hfeed]
  · -- what is read before that read is a part of what is read before the faulty byte
    obtain ⟨x, -, -, -, hb₁, -⟩ := exists_holding hflat
    rw [hb₁] at h
    obtain ⟨st₂, hfirst, hx⟩ := feed_append_ok h
    rw [hfeed] at hfirst
    cases hfirst
    have hinv := (readBytes_evolves Assembler.inv_empty hfeed).inv
    exact hinv.groupList_prefix (readBytes_evolves hinv hx).ext

theorem read_after {core core' : Core} (hst : core.1.1 = .after)
    (h : feed Core.read core chunks = .ok core') : core'.1 = core.1 := by
  cases chunks with
  | nil => cases h; rfl
  | cons chunk rest =>
    obtain ⟨st, unread⟩ := core
    rw [readChunks_after hst (List.cons_ne_nil _ _)] at h
    cases hrun : feed readByte st (unread ++ (chunk :: rest).flatten) with
    | error e => rw [hrun] at h; cases h
    | ok st' =>
      rw [hrun] at h
      cases h
      exact (feed_after hst hrun).1

/-- Text after the closing bracket: it is seen when a read follows the one that holds the
bracket, and otherwise the stream ends as its assembler does. -/
theorem outcome_of_trailing (hflat : chunks.flatten = b₁ ++ c :: b₂)
    (h : feed readByte (.before, {}) b₁ = .ok st₁) (hopen : st₁.1 ≠ .after)
    (hclose : readByte st₁ c = .ok st') (hafter : st'.1 = .after)
    (hrest : b₂.all isSeparator = false) :
    (HeldByLast b₁.length chunks ∧
      outcome ((.before, {}), []) chunks = finishOutcome .after st'.2) ∨
    (¬ HeldByLast b₁.length chunks ∧ ∃ c', outcome ((.before, {}), []) chunks =
      (st'.2.groupList, .failed (.scan (.afterArray c')))) := by
  obtain ⟨chunk, unread, rest, hsplit, hread, rfl⟩ :=
    readChunks_closes hflat h hopen hclose hafter
  have hlen : chunks.length = (chunksBefore b₁.length chunks).length + (rest.length + 1) := by
    conv_lhs => rw [hsplit]
    rw [List.length_append, List.length_cons]
  cases rest with
  | nil =>
    refine .inl ⟨hlen, ?_⟩
    rw [hsplit, outcome_of_read hread, hafter]
  | cons next rest =>
    refine .inr ⟨fun hheld => ?_, ?_⟩
    · rw [HeldByLast, hlen, List.length_cons] at hheld
      omega
    · -- the unread bytes and the rest are examined, and something in them is refused
      have hlook : feed Core.read (st', unread) (next :: rest) =
          (feed readByte st' (unread ++ (next :: rest).flatten)).map fun st => (st, []) :=
        readChunks_after hafter (List.cons_ne_nil next rest)
      cases hrun : feed readByte st' (unread ++ (next :: rest).flatten) with
      | ok st'' =>
        rw [(feed_after hafter hrun).2] at hrest
        cases hrest
      | error e =>
        rw [hrun] at hlook
        obtain ⟨c', rfl⟩ := feed_after_error hafter hrun
        obtain ⟨before, bad, after, core, hcut, hok, hbad⟩ := feed_error_split hlook
        have hpath : feed Core.read ((.before, {}), [])
            (chunksBefore b₁.length chunks ++ [chunk] ++ before) = .ok core := by
          rw [feed_append_of_ok hread, hok]
        have hwhole : chunks =
            chunksBefore b₁.length chunks ++ [chunk] ++ before ++ bad :: after := by
          rw [List.append_assoc, List.append_assoc, ← hcut]
          exact hsplit
        refine ⟨c', ?_⟩
        rw [hwhole, outcome_of_failure hpath hbad, read_after hafter hok]

/-- Closing the array's assembler reads like trailing text only when it fails with nothing
open. -/
theorem finishOutcome_after_like_failed (a : Assembler) (e : StreamError)
    (he : (NextError.failed e).outcomeKind = .other) :
    ((finishOutcome .after a).1 = a.groupList ∧
      (finishOutcome .after a).2.outcomeKind = (NextError.failed e).outcomeKind) ↔
    a.openCrossings = 0 ∧ ∃ e, a.finish = .error e := by
  have hpending : ¬ 0 < Position.after.pending := Nat.lt_irrefl 0
  rw [he, finishOutcome, if_neg hpending]
  cases hfin : a.finish with
  | ok a' =>
    dsimp only
    rw [if_neg (not_not_intro rfl)]
    constructor
    · rintro ⟨-, hkind⟩
      cases hkind
    · rintro ⟨-, e', h⟩
      cases h
  | error e' =>
    dsimp only
    by_cases hopen : 0 < a.openCrossings
    · rw [if_pos hopen]
      constructor
      · rintro ⟨-, hkind⟩
        cases hkind
      · rintro ⟨hzero, -⟩
        omega
    · rw [if_neg hopen]
      exact ⟨fun _ => ⟨by omega, e', rfl⟩, fun _ => ⟨rfl, rfl⟩⟩

end Outcomes

/-! ### When the cuts do not show -/

theorem sameOutcome_iff_outcome {chunks chunks' : List Bytes}
    (hne : ∀ chunk ∈ chunks, chunk ≠ []) (hne' : ∀ chunk ∈ chunks', chunk ≠ []) :
    SameOutcome chunks chunks' ↔
      (outcome ((.before, {}), []) chunks).1 = (outcome ((.before, {}), []) chunks').1 ∧
      (outcome ((.before, {}), []) chunks).2.outcomeKind =
        (outcome ((.before, {}), []) chunks').2.outcomeKind := by
  have h := yields_ofChunks hne
  have h' := yields_ofChunks hne'
  constructor
  · rintro ⟨gs, e, e', hy, hy', hkind⟩
    obtain ⟨hgs, he⟩ := h.unique hy
    obtain ⟨hgs', he'⟩ := h'.unique hy'
    rw [hgs, hgs', he, he']
    exact ⟨rfl, hkind⟩
  · rintro ⟨hgs, hkind⟩
    rw [← hgs] at h'
    exact ⟨_, _, _, h, h', hkind⟩

/-- **When read boundaries show.** Two ways of cutting the same bytes into non-empty reads
yield the same groups and the same kind of outcome exactly when they meet the text's fault
alike. -/
theorem sameOutcome_iff {chunks chunks' : List Bytes} (hne : ∀ chunk ∈ chunks, chunk ≠ [])
    (hne' : ∀ chunk ∈ chunks', chunk ≠ []) (hflat : chunks'.flatten = chunks.flatten) :
    SameOutcome chunks chunks' ↔ SameFate chunks chunks' := by
  rw [sameOutcome_iff_outcome hne hne', SameFate]
  have hspec := fate_spec chunks.flatten
  cases hfate : fate chunks.flatten with
  | sound =>
    rw [hfate] at hspec
    obtain ⟨st', hrun⟩ := hspec
    have hbefore : (Position.before, ({} : Assembler)).1 ≠ .after := nofun
    rw [outcome_of_feed hbefore hrun, outcome_of_feed hbefore (hflat ▸ hrun)]
    exact ⟨fun _ => trivial, fun _ => ⟨rfl, rfl⟩⟩
  | fault n =>
    rw [hfate] at hspec
    obtain ⟨b₁, c, b₂, st₁, e, hcut, rfl, hrun, hopen, hbad⟩ := hspec
    obtain ⟨st₀, hout, hgroups, hpre⟩ := outcome_of_fault hcut hrun hopen hbad
    obtain ⟨st₀', hout', hgroups', hpre'⟩ :=
      outcome_of_fault (hflat.trans hcut) hrun hopen hbad
    dsimp only
    rw [hout, hout', hgroups, hgroups']
    dsimp only
    refine ⟨fun h => ?_, fun h => ⟨?_, rfl⟩⟩
    · rw [← Assembler.length_groupList, ← Assembler.length_groupList, h.1]
    · -- both lists are the first so many groups of one list
      rw [← Assembler.length_groupList, ← Assembler.length_groupList] at h
      exact (List.prefix_of_prefix_length_le hpre hpre' h.le).eq_of_length h
  | trailing n a =>
    rw [hfate] at hspec
    obtain ⟨b₁, c, b₂, st₁, st', hcut, rfl, hrun, hopen, hclose, hafter, rfl, hrest⟩ := hspec
    dsimp only
    rcases outcome_of_trailing hcut hrun hopen hclose hafter hrest with
      ⟨hheld, hout⟩ | ⟨hheld, c₁, hout⟩ <;>
    rcases outcome_of_trailing (hflat.trans hcut) hrun hopen hclose hafter hrest with
      ⟨hheld', hout'⟩ | ⟨hheld', c₂, hout'⟩ <;>
    rw [hout, hout']
    · exact ⟨fun _ => .inl (iff_of_true hheld hheld'), fun _ => ⟨rfl, rfl⟩⟩
    · rw [finishOutcome_after_like_failed _ _ rfl, iff_false_intro hheld', iff_false,
        or_iff_right (not_not_intro hheld)]
    · rw [eq_comm, @eq_comm OutcomeKind, finishOutcome_after_like_failed _ _ rfl,
        iff_false_intro hheld, false_iff, or_iff_right (not_not_intro hheld')]
    · exact ⟨fun _ => .inl (iff_of_false hheld hheld'), fun _ => ⟨rfl, rfl⟩⟩

/-- A complete call of `f`, in an array that goes on. -/
def oneCall : Bytes :=
  encode "[\x7b\"Function\":\x7b\"name\":\"f\"\x7d\x7d,\x7b\"Call\":\x7b\x7d\x7d,\x7b\"Return\":\x7b\x7d\x7d".toList

/-- An element that is not a record. -/
def notARecord : Bytes := encode ",7]".toList

/-- The end of the array. -/
def closing : Bytes := encode "]".toList

/-- A second array after the first. -/
def secondArray : Bytes := encode "[]".toList

theorem sameOutcome_iff_oneCall :
    SameOutcome [oneCall, notARecord] [oneCall.take 9, oneCall.drop 9, notARecord] := by
  refine (sameOutcome_iff (by decide +kernel) (by decide +kernel) (by decide +kernel)).mpr ?_
  have hfate : fate [oneCall, notARecord].flatten = .fault (oneCall.length + 1) := by
    decide +kernel
  rw [SameFate, hfate]
  decide +kernel

/-- In one read with the element that is refused, the call is lost; in one read with the
closing bracket, the second array is not seen. -/
theorem not_sameOutcome_oneCall :
    ¬ SameOutcome [oneCall, notARecord] [oneCall ++ notARecord] ∧
    ¬ SameOutcome [oneCall ++ closing, secondArray] [oneCall ++ closing ++ secondArray] := by
  constructor <;> rw [sameOutcome_iff_outcome (by decide +kernel) (by decide +kernel)] <;>
    decide +kernel

/-! ### Streams that go on -/

theorem finishOutcome_failed {pos : Position} {a : Assembler} {e : StreamError}
    (h : (finishOutcome pos a).2 = .failed e) : (finishOutcome pos a).1 = a.groupList := by
  rw [finishOutcome] at h ⊢
  cases hfin : a.finish with
  | error e' =>
    dsimp only
    split_ifs <;> rfl
  | ok a' =>
    rw [hfin] at h
    dsimp only at h ⊢
    split_ifs at h ⊢
    · rfl
    · rfl

theorem outcome_append_prefix {core : Core} {chunks : List Bytes} (more : List Bytes)
    (hinv : core.1.2.Inv) {e : StreamError} (h : (outcome core chunks).2 = .failed e) :
    (outcome core chunks).1 <+: (outcome core (chunks ++ more)).1 := by
  induction chunks generalizing core with
  | nil =>
    rw [outcome] at h ⊢
    rw [finishOutcome_failed h]
    exact outcome_prefix more hinv
  | cons chunk chunks ih =>
    rw [List.cons_append, outcome, outcome]
    rw [outcome] at h
    cases hread : core.read chunk with
    | error e' => exact List.prefix_refl _
    | ok core' =>
      rw [hread] at h
      exact ih (Core.read_evolves hinv hread).inv h

/-- **What was handed out stands.** The groups a reader hands out before its stream fails or is cut
short come first, unchanged, whatever follows the same reads. -/
theorem groups_stand {chunks more : List Bytes} (hne : ∀ chunk ∈ chunks ++ more, chunk ≠ [])
    {gs gs' : List (List Crossing)} {e : StreamError} {e' : NextError}
    (h : Yields (.ofChunks chunks) gs (.failed e))
    (h' : Yields (.ofChunks (chunks ++ more)) gs' e') : gs <+: gs' := by
  obtain ⟨rfl, hfailed⟩ := h.unique (yields_ofChunks fun c hc => hne c (List.mem_append_left _ hc))
  obtain ⟨rfl, -⟩ := h'.unique (yields_ofChunks hne)
  exact outcome_append_prefix more Assembler.inv_empty hfailed.symm

theorem groups_stand_oneCall :
    (outcome ((.before, {}), []) [oneCall]).1.length = 1 ∧
      (outcome ((.before, {}), []) [oneCall]).1 <+:
        (outcome ((.before, {}), []) [oneCall, notARecord]).1 := by
  have hcut : (outcome ((.before, {}), []) [oneCall]).2 =
      .failed (.truncation ⟨.unterminated, 1, 0, 0⟩) := by
    decide +kernel
  exact ⟨by decide +kernel, @groups_stand [oneCall] [notARecord] (by decide +kernel) _ _ _ _
    (hcut ▸ yields_ofChunks (by decide +kernel)) (yields_ofChunks (by decide +kernel))⟩

end Boundarylog
