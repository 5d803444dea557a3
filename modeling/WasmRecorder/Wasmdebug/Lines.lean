import WasmRecorder.Interpreter.VariableReaders
import WasmRecorder.Lib.Fallible
import WasmRecorder.Lib.IntervalMap

/-!
# The index of lines

The line table of a compile unit is a list of rows, in sequences: a row holds from its address up to
the address of the next one, and the last row of a sequence only ends it. `indexCompileUnit` decides
about a row when it sees the next one.

* `find_indexRows`, `indexRows_ok_iff` — which rows get an interval, and when the loop ends.
* `lines_indexed_iff` — **when the statements and the refinements of columns are what is indexed**.

A refinement is a row that differs from the one before it in its column only. The loop compares a row
with the one behind it instead, and looks at nothing but the column. Also, the index takes no
interval of one address (`misindexed_rows`).
-/

namespace Wasmdebug

open Interpreter (Text Fault LineRecord)

/-- A row of a line table; a row may refer to a file that is not in the table of files. -/
structure LineEntry where
  address : Nat
  file : Option Text
  line : Int
  column : Int
  isStmt : Bool
  endSequence : Bool
  deriving DecidableEq, Repr

/-- The tree of lines, which was not told to take single points. -/
abbrev LineIndex := IntervalMap false Nat LineRecord

/-- The interval of a row. -/
def LineEntry.span (row next : LineEntry) : Extent Nat := ⟨row.address, next.address - 1⟩

/-- Does the loop want a row to be indexed? -/
def LineEntry.Taken (row next : LineEntry) : Prop :=
  row.address < next.address ∧ 0 < row.line ∧ (row.isStmt = true ∨ row.column ≠ next.column)

instance (row next : LineEntry) : Decidable (row.Taken next) :=
  inferInstanceAs (Decidable (_ ∧ _))

/-- Index the previous row. The error of `Insert` is ignored. -/
def indexRow (prevLe : Option LineEntry) (le : LineEntry) (index : LineIndex) :
    Except Fault LineIndex :=
  match prevLe with
  | none => .ok index
  | some row =>
    if row.Taken le then
      match row.file with
      | none => .error .panic
      | some name => .ok (index.insert (row.span le) ⟨name, row.line, row.column⟩)
    else .ok index

def indexRows : Option LineEntry → LineIndex → List LineEntry → Except Fault LineIndex
  | _, index, [] => .ok index
  | prevLe, index, le :: rest => do
    let index ← indexRow prevLe le index
    indexRows (if le.endSequence then none else some le) index rest

/-- The rows of a compile unit. -/
def indexCompileUnit (index : LineIndex) (rows : List LineEntry) : Except Fault LineIndex :=
  indexRows none index rows

/-! ### Sequences -/

/-- A sequence: addresses do not decrease, and the last row ends it. -/
def IsSequence : List LineEntry → Prop
  | [] => False
  | [row] => row.endSequence = true
  | row :: next :: rest =>
    row.endSequence = false ∧ row.address ≤ next.address ∧ IsSequence (next :: rest)

instance : (rows : List LineEntry) → Decidable (IsSequence rows)
  | [] => inferInstanceAs (Decidable False)
  | [row] => inferInstanceAs (Decidable (row.endSequence = true))
  | row :: next :: rest =>
    haveI : Decidable (IsSequence (next :: rest)) := instDecidableIsSequence (next :: rest)
    inferInstanceAs (Decidable (row.endSequence = false ∧ row.address ≤ next.address ∧ _))

/-- A row with a line that has an address of its own, and the row behind it. -/
structure RowAt (rows : List LineEntry) (i : Nat) (row next : LineEntry) : Prop where
  here : rows[i]? = some row
  behind : rows[i + 1]? = some next
  line : 0 < row.line
  below : row.address < next.address

/-- A refinement of the column: the row before it has the same file and line. -/
def Refines (rows : List LineEntry) (i : Nat) (row : LineEntry) : Prop :=
  ∃ j before, i = j + 1 ∧ rows[j]? = some before ∧ before.file = row.file ∧
    before.line = row.line ∧ before.column ≠ row.column

/-- A row has its interval in the index. -/
def Gets (index : LineIndex) (row next : LineEntry) : Prop :=
  ∃ name, row.file = some name ∧ index.find (row.span next) = some ⟨name, row.line, row.column⟩

/-- The loop ends, and the rows with intervals are the statements and the refinements. -/
def KeepsStatements (index : LineIndex) (rows : List LineEntry) : Prop :=
  ∃ index', indexCompileUnit index rows = .ok index' ∧ ∀ i row next, RowAt rows i row next →
    (Gets index' row next ↔ row.isStmt = true ∨ Refines rows i row)

/-- Rows that are indexed have a file; a statement has two addresses; and of the other rows, just the
refinements have two addresses and another column than the row behind. -/
def Plain (rows : List LineEntry) : Prop :=
  ∀ i row next, RowAt rows i row next →
    (row.isStmt = true ∨ row.column ≠ next.column → row.file ≠ none) ∧
    (row.isStmt = true → row.address + 1 < next.address) ∧
    (row.isStmt = false →
      (Refines rows i row ↔ row.column ≠ next.column ∧ row.address + 1 < next.address))

/-- The index has no interval yet that begins with a row. -/
def Fresh (index : LineIndex) (rows : List LineEntry) : Prop :=
  ∀ row ∈ rows, ∀ last, index.find ⟨row.address, last⟩ = none

/-! ### The loop -/

section Loop

variable {index index' : LineIndex} {row next : LineEntry} {rest rows : List LineEntry}

theorem IsSequence.le (h : IsSequence (row :: rest)) : ∀ later ∈ rest, row.address ≤ later.address := by
  induction rest generalizing row with
  | nil => exact fun later hlater => absurd hlater List.not_mem_nil
  | cons next rest ih =>
    obtain ⟨-, hle, hnext⟩ := h
    intro later hlater
    rcases List.mem_cons.mp hlater with rfl | hlater
    · exact hle
    · exact hle.trans (ih hnext later hlater)

theorem indexRows_cons (h : IsSequence (row :: next :: rest)) (prevLe : Option LineEntry) :
    indexRows prevLe index (row :: next :: rest) =
      indexRow prevLe row index >>= fun index => indexRows (some row) index (next :: rest) := by
  rw [indexRows, h.1]
  rfl

theorem indexRows_next (h : IsSequence (row :: rest)) (prevLe : Option LineEntry) :
    indexRows prevLe index (row :: rest) =
      indexRow prevLe row index >>= fun index => indexRows (some row) index rest := by
  cases rest with
  | nil => rfl
  | cons next rest => exact indexRows_cons h prevLe

theorem find_indexRow (h : indexRow (some row) next index = .ok index') {k : Extent Nat}
    (hk : k.first ≠ row.address) : index'.find k = index.find k := by
  rw [indexRow] at h
  split at h
  · split at h
    · cases h
    · cases h
      exact IntervalMap.find_insert_of_ne (fun heq => hk (congrArg Extent.first heq)) _ _
  · cases h
    rfl

theorem find_indexRows_frame (hseq : IsSequence rows)
    (h : indexRows (some row) index rows = .ok index') {k : Extent Nat}
    (hrow : k.first ≠ row.address) (hk : ∀ r ∈ rows, k.first ≠ r.address) :
    index'.find k = index.find k := by
  induction rows generalizing row index with
  | nil => exact hseq.elim
  | cons next rest ih =>
    rw [indexRows_next hseq] at h
    obtain ⟨index₁, hindex, hrest⟩ := Fallible.bind_eq_ok.mp h
    have hnext := hk next List.mem_cons_self
    cases rest with
    | nil =>
      cases hrest
      exact find_indexRow hindex hrow
    | cons later rest =>
      rw [ih hseq.2.2 hrest hnext fun r hr => hk r (List.mem_cons_of_mem next hr),
        find_indexRow hindex hrow]

theorem find_indexRow_self (h : indexRow (some row) next index = .ok index')
    (hfresh : index.find (row.span next) = none) {record : LineRecord} :
    index'.find (row.span next) = some record ↔
      row.Taken next ∧ row.address + 1 < next.address ∧
        ∃ name, row.file = some name ∧ record = ⟨name, row.line, row.column⟩ := by
  rw [indexRow] at h
  by_cases htaken : row.Taken next
  · rw [if_pos htaken] at h
    cases hfile : row.file with
    | none => rw [hfile] at h; cases h
    | some name =>
      rw [hfile] at h
      cases h
      by_cases hpoint : row.address + 1 < next.address
      · have hvalid : (row.span next).Valid false := by
          change row.address < next.address - 1
          omega
        rw [IntervalMap.find_insert _ hvalid]
        constructor
        · intro hrecord
          cases hrecord
          exact ⟨htaken, hpoint, name, rfl, rfl⟩
        · rintro ⟨-, -, name', hname, rfl⟩
          cases hname
          rfl
      · have hinvalid : ¬ (row.span next).Valid false := by
          change ¬ row.address < next.address - 1
          omega
        rw [IntervalMap.insert_of_not_valid _ hinvalid, hfresh]
        exact iff_of_false nofun fun htwo => hpoint htwo.2.1
  · rw [if_neg htaken] at h
    cases h
    rw [hfresh]
    exact iff_of_false nofun fun h => htaken h.1

theorem Fresh.indexRow (hseq : IsSequence (row :: next :: rest))
    (hfresh : Fresh index (row :: next :: rest)) (h : indexRow (some row) next index = .ok index')
    (hlt : row.address < next.address) : Fresh index' (next :: rest) := by
  intro later hlater last
  have hle : next.address ≤ later.address := by
    rcases List.mem_cons.mp hlater with rfl | hlater
    · exact le_refl _
    · exact hseq.2.2.le later hlater
  rw [find_indexRow h (by change later.address ≠ row.address; omega)]
  exact hfresh later (List.mem_cons_of_mem row hlater) last

theorem indexRow_same (h : indexRow (some row) next index = .ok index')
    (heq : ¬ row.address < next.address) : index' = index := by
  rw [indexRow, if_neg fun htaken => heq htaken.1] at h
  cases h
  rfl

/-- **Which rows get an interval.** -/
theorem find_indexRows (hseq : IsSequence (row :: rest)) (hfresh : Fresh index (row :: rest))
    (h : indexRows (some row) index rest = .ok index') {i : Nat} {this behind : LineEntry}
    (hat : RowAt (row :: rest) i this behind) {record : LineRecord} :
    index'.find (this.span behind) = some record ↔
      this.Taken behind ∧ this.address + 1 < behind.address ∧
        ∃ name, this.file = some name ∧ record = ⟨name, this.line, this.column⟩ := by
  induction rest generalizing row index i with
  | nil =>
    have hnone := hat.behind
    rw [List.getElem?_cons_succ, List.getElem?_nil] at hnone
    cases hnone
  | cons next rest ih =>
    obtain ⟨-, hle, hnext⟩ := id hseq
    rw [indexRows_next hnext] at h
    obtain ⟨index₁, hindex, hrest⟩ := Fallible.bind_eq_ok.mp h
    cases i with
    | zero =>
      have hthis : row = this := Option.some.inj hat.here
      have hbehind : next = behind := Option.some.inj hat.behind
      have hbelow := hat.below
      subst hthis
      subst hbehind
      -- no later row begins here
      have hlater : ∀ r ∈ next :: rest, row.address ≠ r.address := by
        intro r hr
        rcases List.mem_cons.mp hr with rfl | hr
        · exact Nat.ne_of_lt hbelow
        · exact Nat.ne_of_lt (hbelow.trans_le (hnext.le r hr))
      have hframe : index'.find (row.span next) = index₁.find (row.span next) := by
        cases rest with
        | nil => cases hrest; rfl
        | cons later rest =>
          exact find_indexRows_frame hnext.2.2 hrest (hlater next List.mem_cons_self)
            fun r hr => hlater r (List.mem_cons_of_mem next hr)
      rw [hframe]
      exact find_indexRow_self hindex (hfresh row List.mem_cons_self _)
    | succ i =>
      have hat' : RowAt (next :: rest) i this behind := ⟨hat.here, hat.behind, hat.line, hat.below⟩
      refine ih hnext ?_ hrest hat'
      by_cases hlt : row.address < next.address
      · exact hfresh.indexRow hseq hindex hlt
      · rw [indexRow_same hindex hlt]
        exact fun later hlater => hfresh later (List.mem_cons_of_mem row hlater)

theorem indexRow_ok_iff : (∃ index', indexRow (some row) next index = .ok index') ↔
    (row.Taken next → row.file ≠ none) := by
  rw [indexRow]
  by_cases htaken : row.Taken next
  · rw [if_pos htaken]
    cases row.file with
    | none => exact iff_of_false (fun ⟨_, h⟩ => by cases h) fun h => h htaken rfl
    | some name => exact iff_of_true ⟨_, rfl⟩ nofun
  · rw [if_neg htaken]
    exact iff_of_true ⟨_, rfl⟩ fun h => absurd h htaken

/-- **When the loop ends.** -/
theorem indexRows_ok_iff (hseq : IsSequence (row :: rest)) :
    (∃ index', indexRows (some row) index rest = .ok index') ↔
      ∀ i this behind, RowAt (row :: rest) i this behind → this.Taken behind → this.file ≠ none := by
  induction rest generalizing row index with
  | nil =>
    refine iff_of_true ⟨_, rfl⟩ fun i this behind hat => ?_
    have hnone := hat.behind
    rw [List.getElem?_cons_succ, List.getElem?_nil] at hnone
    cases hnone
  | cons next rest ih =>
    obtain ⟨-, hle, hnext⟩ := hseq
    rw [indexRows_next hnext]
    constructor
    · rintro ⟨index', h⟩ i this behind hat htaken
      obtain ⟨index₁, hindex, hrest⟩ := Fallible.bind_eq_ok.mp h
      cases i with
      | zero =>
        have hthis : row = this := Option.some.inj hat.here
        have hbehind : next = behind := Option.some.inj hat.behind
        subst hthis
        subst hbehind
        exact indexRow_ok_iff.mp ⟨index₁, hindex⟩ htaken
      | succ i =>
        exact (ih hnext).mp ⟨index', hrest⟩ i this behind
          ⟨hat.here, hat.behind, hat.line, hat.below⟩ htaken
    · intro hfiles
      have hrow : row.Taken next → row.file ≠ none := fun htaken =>
        hfiles 0 row next ⟨rfl, rfl, htaken.2.1, htaken.1⟩ htaken
      obtain ⟨index₁, hindex⟩ := indexRow_ok_iff.mpr hrow
      obtain ⟨index', hrest⟩ : ∃ index', indexRows (some next) index₁ rest = .ok index' :=
        (ih hnext).mpr fun i this behind hat htaken =>
          hfiles (i + 1) this behind ⟨hat.here, hat.behind, hat.line, hat.below⟩ htaken
      exact ⟨index', Fallible.bind_eq_ok.mpr ⟨index₁, hindex, hrest⟩⟩

end Loop

theorem indexCompileUnit_cons {index : LineIndex} {row : LineEntry} {rest : List LineEntry}
    (hseq : IsSequence (row :: rest)) :
    indexCompileUnit index (row :: rest) = indexRows (some row) index rest :=
  indexRows_next hseq none

/-- **The statements and the refinements are indexed if and only if the sequence is plain.** -/
theorem lines_indexed_iff {index : LineIndex} {rows : List LineEntry} (hseq : IsSequence rows)
    (hfresh : Fresh index rows) : KeepsStatements index rows ↔ Plain rows := by
  obtain ⟨row, rest, rfl⟩ : ∃ row rest, rows = row :: rest := by
    cases rows with
    | nil => exact hseq.elim
    | cons row rest => exact ⟨row, rest, rfl⟩
  rw [KeepsStatements, indexCompileUnit_cons hseq]
  -- an interval, in terms of the row and the one behind it
  have hgets : ∀ {index' i this behind}, indexRows (some row) index rest = .ok index' →
      RowAt (row :: rest) i this behind → (Gets index' this behind ↔
        (this.isStmt = true ∨ this.column ≠ behind.column) ∧ this.address + 1 < behind.address ∧
          this.file ≠ none) := by
    intro index' i this behind hok hat
    constructor
    · rintro ⟨name, hname, hfind⟩
      obtain ⟨htaken, htwo, -⟩ := (find_indexRows hseq hfresh hok hat).mp hfind
      exact ⟨htaken.2.2, htwo, by rw [hname]; exact nofun⟩
    · rintro ⟨hwanted, htwo, hfile⟩
      obtain ⟨name, hname⟩ := Option.ne_none_iff_exists'.mp hfile
      exact ⟨name, hname, (find_indexRows hseq hfresh hok hat).mpr
        ⟨⟨hat.below, hat.line, hwanted⟩, htwo, name, hname, rfl⟩⟩
  constructor
  · rintro ⟨index', hok, hall⟩ i this behind hat
    have hfile : this.isStmt = true ∨ this.column ≠ behind.column → this.file ≠ none := fun hwanted =>
      (indexRows_ok_iff hseq).mp ⟨index', hok⟩ i this behind hat ⟨hat.below, hat.line, hwanted⟩
    have hthis := (hgets hok hat).symm.trans (hall i this behind hat)
    refine ⟨hfile, fun hstmt => (hthis.mpr (.inl hstmt)).2.1, fun hstmt => ?_⟩
    have hno : ¬ this.isStmt = true := by rw [hstmt]; exact Bool.false_ne_true
    constructor
    · intro hrefines
      obtain ⟨hwanted, htwo, -⟩ := hthis.mpr (.inr hrefines)
      exact ⟨hwanted.resolve_left hno, htwo⟩
    · rintro ⟨hcolumn, htwo⟩
      exact (hthis.mp ⟨.inr hcolumn, htwo, hfile (.inr hcolumn)⟩).resolve_left hno
  · intro hplain
    obtain ⟨index', hok⟩ : ∃ index', indexRows (some row) index rest = .ok index' :=
      (indexRows_ok_iff hseq).mpr fun i this behind hat htaken =>
        (hplain i this behind hat).1 htaken.2.2
    refine ⟨index', hok, fun i this behind hat => (hgets hok hat).trans ?_⟩
    obtain ⟨hfile, hstmt, hother⟩ := hplain i this behind hat
    constructor
    · rintro ⟨hwanted, htwo, -⟩
      cases hcase : this.isStmt with
      | true => exact .inl rfl
      | false =>
        rw [hcase] at hwanted
        exact .inr ((hother hcase).mpr ⟨hwanted.resolve_left Bool.false_ne_true, htwo⟩)
    · intro hwanted
      cases hcase : this.isStmt with
      | true => exact ⟨.inl rfl, hstmt hcase, hfile (.inl hcase)⟩
      | false =>
        rw [hcase] at hwanted
        obtain ⟨hcolumn, htwo⟩ := (hother hcase).mp (hwanted.resolve_left Bool.false_ne_true)
        exact ⟨.inr hcolumn, htwo, hfile (.inr hcolumn)⟩

/-- A row of line 1 or 2 of a file. -/
def lineRow (address : Nat) (line column : Int) (isStmt : Bool) : LineEntry :=
  ⟨address, some "a.rs".toList, line, column, isStmt, false⟩

/-- The end of a sequence, which repeats the place of the row in front of it. -/
def endRow (address : Nat) (line column : Int) : LineEntry :=
  ⟨address, some "a.rs".toList, line, column, true, true⟩

/-- Two statements, the first with a refinement. -/
def refinedRows : List LineEntry :=
  [lineRow 16 1 1 true, lineRow 20 1 9 false, lineRow 24 2 5 true, endRow 30 2 5]

/-- A sequence in which all is well. -/
theorem lines_indexed_refined : IsSequence refinedRows ∧ KeepsStatements .empty refinedRows := by
  have hseq : IsSequence refinedRows := by decide
  refine ⟨hseq, (lines_indexed_iff hseq fun _ _ _ => rfl).mpr fun i row next hat => ?_⟩
  obtain ⟨hrow, hnext, -, -⟩ := hat
  match i with
  | 0 =>
    cases hrow
    cases hnext
    exact ⟨by decide, by decide, nofun⟩
  | 1 =>
    cases hrow
    cases hnext
    exact ⟨by decide, by decide, fun _ => iff_of_true
      ⟨0, lineRow 16 1 1 true, rfl, rfl, rfl, rfl, by decide⟩ (by decide)⟩
  | 2 =>
    cases hrow
    cases hnext
    exact ⟨by decide, by decide, nofun⟩
  | 3 => cases hnext
  | i + 4 => cases hrow

/-- A refinement that is the last row of its sequence; a row that begins another line, though it is
not a statement; and a statement of one address. -/
def lastRefinement : List LineEntry :=
  [lineRow 16 1 1 true, lineRow 20 1 9 false, endRow 24 1 9]

def otherLine : List LineEntry :=
  [lineRow 16 1 1 true, lineRow 20 2 1 false, lineRow 24 2 9 true, endRow 30 2 9]

def oneAddress : List LineEntry := [lineRow 16 1 1 true, lineRow 17 2 1 true, endRow 20 2 1]

/-- **Rows that are dropped or indexed against the rule.** -/
theorem misindexed_rows :
    (IsSequence lastRefinement ∧ ¬ KeepsStatements .empty lastRefinement) ∧
    (IsSequence otherLine ∧ ¬ KeepsStatements .empty otherLine) ∧
    IsSequence oneAddress ∧ ¬ KeepsStatements .empty oneAddress := by
  refine ⟨⟨by decide, ?_⟩, ⟨by decide, ?_⟩, by decide, ?_⟩
  · rintro ⟨index', hok, hall⟩
    cases hok
    obtain ⟨name, -, hfind⟩ := (hall 1 (lineRow 20 1 9 false) (endRow 24 1 9)
      ⟨rfl, rfl, by decide, by decide⟩).mpr
        (.inr ⟨0, lineRow 16 1 1 true, rfl, rfl, rfl, rfl, by decide⟩)
    cases hfind
  · rintro ⟨index', hok, hall⟩
    cases hok
    rcases (hall 1 (lineRow 20 2 1 false) (lineRow 24 2 9 true)
      ⟨rfl, rfl, by decide, by decide⟩).mp ⟨_, rfl, rfl⟩ with hstmt | ⟨j, before, hj, hbefore, hrest⟩
    · cases hstmt
    · cases hj
      cases hbefore
      exact absurd hrest.2.1 (by decide)
  · rintro ⟨index', hok, hall⟩
    cases hok
    obtain ⟨name, -, hfind⟩ := (hall 0 (lineRow 16 1 1 true) (lineRow 17 2 1 true)
      ⟨rfl, rfl, by decide, by decide⟩).mpr (.inl rfl)
    cases hfind

end Wasmdebug
