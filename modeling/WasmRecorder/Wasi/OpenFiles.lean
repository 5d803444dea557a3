import WasmRecorder.Wasi.FileTable

/-!
# Descriptors and the files they name

The operations of a file-system context open files into the descriptor table, close them and move
them from one descriptor to another. Each file should be in one place: named by one descriptor, or
closed.

* `Ledger` — that is so. Opening, closing and moving to another descriptor keep it.
* `files_accounted_iff` — a run keeps it at every moment unless it moves a file onto its own
  descriptor, which closes the file and leaves it in the table, or opens one when every descriptor
  is taken.
-/

namespace Wasi

open Path (Bytes slash)

namespace OpenFiles

/-- An operation. `preopen` is what the context starts with: standard streams, mounts and
listeners. Opening a file may fail, with what the file system answers. -/
inductive Op where
  | preopen (entry : FileEntry)
  | openFile (fs : DirFS) (path : Bytes) (answer : Option Errno)
  | closeFile (fd : Int32)
  | renumber (source target : Int32)

abbrev Result := Except Errno Int32

/-- A host whose files close. -/
def closing (answer : Option Errno) : Host where
  isDir _ := .ok false
  isDir_of_fs_none _ _ := nofun
  openFile _ := answer
  close _ := none
  accept := false

/-- One operation. `none` is a panic. -/
def step (w : FSContext) : Op → Option (Result × FSContext)
  | .preopen entry => w.insertNew { entry with isPreopen := true }
  | .openFile fs path answer => w.openFile (closing answer) fs path
  | .closeFile fd => w.closeFile (closing none) fd
  | .renumber source target => w.renumber source target

/-! ### Where the files are -/

/-- Every file that was opened is named by exactly one descriptor, and not closed, or closed, and
that once. `names` is what the descriptors name. -/
structure Ledger (names : Nat → Option FileEntry) (opened : Nat) (closed : List Nat) : Prop where
  known : ∀ fd f, names fd = some f → f.file < opened
  not_closed : ∀ fd f, names fd = some f → f.file ∉ closed
  closed_once : closed.Nodup
  closed_known : ∀ file ∈ closed, file < opened
  placed : ∀ file < opened, (∃! fd, ∃ f, names fd = some f ∧ f.file = file) ∨ file ∈ closed

namespace Ledger

variable {names : Nat → Option FileEntry} {opened : Nat} {closed : List Nat} {fd fd' : Nat}
  {f f' : FileEntry}

theorem unique (h : Ledger names opened closed) (hf : names fd = some f)
    (hf' : names fd' = some f') (hfile : f.file = f'.file) : fd = fd' := by
  rcases h.placed _ (h.known _ _ hf) with ⟨_, -, huniq⟩ | hclosed
  · exact (huniq fd ⟨f, hf, rfl⟩).trans (huniq fd' ⟨f', hf', hfile.symm⟩).symm
  · exact absurd hclosed (h.not_closed _ _ hf)

/-- A new file at a free descriptor. -/
theorem openNew (h : Ledger names opened closed) (hfree : names fd = none) (f : FileEntry) :
    Ledger (Function.update names fd (some { f with file := opened })) (opened + 1) closed := by
  refine ⟨fun x e hx => ?_, fun x e hx => ?_, h.closed_once,
    fun file hfile => (h.closed_known file hfile).trans (Nat.lt_succ_self _), fun file hlt => ?_⟩
  · rcases update_eq_some.mp hx with ⟨-, ⟨⟩⟩ | ⟨-, hx⟩
    · exact Nat.lt_succ_self _
    · exact (h.known x e hx).trans (Nat.lt_succ_self _)
  · -- the number of the new file is larger than those of all that were closed
    rcases update_eq_some.mp hx with ⟨-, ⟨⟩⟩ | ⟨-, hx⟩
    · exact fun hmem => absurd (h.closed_known _ hmem) (lt_irrefl _)
    · exact h.not_closed x e hx
  · rcases Nat.lt_succ_iff_lt_or_eq.mp hlt with hold | rfl
    · -- the descriptor was free, so that it is not the one of an older file
      refine (h.placed file hold).imp_left ?_
      rintro ⟨x, ⟨e, hx, he⟩, huniq⟩
      have hne : x ≠ fd := by
        rintro rfl
        cases hfree.symm.trans hx
      refine ⟨x, ⟨e, update_eq_some.mpr (Or.inr ⟨hne, hx⟩), he⟩, ?_⟩
      rintro y ⟨e', hy, he'⟩
      rcases update_eq_some.mp hy with ⟨-, ⟨⟩⟩ | ⟨-, hy⟩
      · exact absurd he' (Nat.ne_of_gt hold)
      · exact huniq y ⟨e', hy, he'⟩
    · refine Or.inl ⟨fd, ⟨_, Function.update_self .., rfl⟩, ?_⟩
      rintro y ⟨e', hy, he'⟩
      rcases update_eq_some.mp hy with ⟨rfl, -⟩ | ⟨-, hy⟩
      · rfl
      · exact absurd (he' ▸ h.known y e' hy) (lt_irrefl _)

/-- A file that is closed and taken out. -/
theorem close (h : Ledger names opened closed) (hf : names fd = some f) :
    Ledger (Function.update names fd none) opened (closed ++ [f.file]) := by
  have hold {x : Nat} {e : FileEntry} (hx : Function.update names fd none x = some e) :
      x ≠ fd ∧ names x = some e := by
    rcases update_eq_some.mp hx with ⟨-, ⟨⟩⟩ | hx
    exact hx
  refine ⟨fun x e hx => h.known x e (hold hx).2, fun x e hx hmem => ?_, ?_, fun file hmem => ?_,
    fun file hlt => ?_⟩
  · -- no other descriptor has the file that is closed now
    obtain ⟨hne, hx⟩ := hold hx
    rcases List.mem_append.mp hmem with hmem | hmem
    · exact h.not_closed x e hx hmem
    · exact hne (h.unique hx hf (List.mem_singleton.mp hmem))
  · exact List.nodup_append.mpr ⟨h.closed_once, List.nodup_singleton _, fun a ha b hb hab =>
      h.not_closed _ _ hf (List.mem_singleton.mp hb ▸ hab ▸ ha)⟩
  · rcases List.mem_append.mp hmem with hmem | hmem
    · exact h.closed_known file hmem
    · exact List.mem_singleton.mp hmem ▸ h.known _ _ hf
  · by_cases hfile : file = f.file
    · exact Or.inr (List.mem_append_right _ (List.mem_singleton.mpr hfile))
    · refine (h.placed file hlt).imp ?_ (List.mem_append_left _)
      rintro ⟨x, ⟨e, hx, he⟩, huniq⟩
      have hne : x ≠ fd := by
        rintro rfl
        cases hf.symm.trans hx
        exact hfile he.symm
      exact ⟨x, ⟨e, update_eq_some.mpr (Or.inr ⟨hne, hx⟩), he⟩,
        fun y ⟨e', hy, he'⟩ => huniq y ⟨e', (hold hy).2, he'⟩⟩

/-- A file that is moved to a free descriptor. -/
theorem move (h : Ledger names opened closed) (hf : names fd = some f) (hne : fd ≠ fd')
    (hfree : names fd' = none) :
    Ledger (Function.update (Function.update names fd none) fd' (some f)) opened closed := by
  have hcases {x : Nat} {e : FileEntry}
      (hx : Function.update (Function.update names fd none) fd' (some f) x = some e) :
      x = fd' ∧ f = e ∨ x ≠ fd ∧ x ≠ fd' ∧ names x = some e := by
    rcases update_eq_some.mp hx with ⟨heq, ⟨⟩⟩ | ⟨hne, hx⟩
    · exact Or.inl ⟨heq, rfl⟩
    · rcases update_eq_some.mp hx with ⟨-, ⟨⟩⟩ | ⟨hne', hx⟩
      exact Or.inr ⟨hne', hne, hx⟩
  refine ⟨fun x e hx => ?_, fun x e hx => ?_, h.closed_once, h.closed_known, fun file hlt => ?_⟩
  · rcases hcases hx with ⟨-, rfl⟩ | ⟨-, -, hx⟩
    · exact h.known _ _ hf
    · exact h.known x e hx
  · rcases hcases hx with ⟨-, rfl⟩ | ⟨-, -, hx⟩
    · exact h.not_closed _ _ hf
    · exact h.not_closed x e hx
  · refine (h.placed file hlt).imp_left ?_
    rintro ⟨x, ⟨e, hx, he⟩, huniq⟩
    by_cases hxfd : x = fd
    · -- the file that goes: the descriptor it leaves names nothing any more
      subst hxfd
      cases hf.symm.trans hx
      refine ⟨fd', ⟨f, Function.update_self .., he⟩, ?_⟩
      rintro y ⟨e', hy, he'⟩
      rcases hcases hy with ⟨rfl, -⟩ | ⟨hne', -, hy⟩
      · rfl
      · exact absurd (huniq y ⟨e', hy, he'⟩) hne'
    · have hxfd' : x ≠ fd' := by
        rintro rfl
        cases hfree.symm.trans hx
      refine ⟨x, ⟨e, by rw [Function.update_of_ne hxfd', Function.update_of_ne hxfd, hx], he⟩, ?_⟩
      rintro y ⟨e', hy, he'⟩
      rcases hcases hy with ⟨rfl, rfl⟩ | ⟨-, -, hy⟩
      · exact absurd (h.unique hf hx (he'.trans he.symm)).symm hxfd
      · exact huniq y ⟨e', hy, he'⟩

end Ledger

/-! ### Operations -/

open FSContext (lookup_eq renumber_eq)

/-- Every file is where it should be. -/
def Accounted (w : FSContext) : Prop := Ledger w.openedFiles.entries w.opened w.closed

variable {w w' : FSContext} {source target : Int32} {f : FileEntry}

/-- Opening a file succeeds as long as a descriptor is free. -/
theorem insertNew_cases (hwf : w.openedFiles.WF) (hacc : Accounted w) (f : FileEntry) :
    ((∃ k < 2 ^ 31, w.openedFiles.entries k = none) ∧ ∃ r w', w.insertNew f = some (r, w') ∧
        w'.openedFiles.WF ∧ Accounted w' ∧ True) ∨
      (¬ ∃ k < 2 ^ 31, w.openedFiles.entries k = none) ∧
        ∀ r w', w.insertNew f = some (r, w') → ¬ Accounted w' := by
  rcases FSContext.insertNew_spec hwf f with ⟨k, hk, hnone, t', hwf', hent, heq⟩ | ⟨hfull, heq⟩
  · refine Or.inl ⟨⟨k, hk, hnone⟩, _, _, heq, hwf', ?_, trivial⟩
    rw [Accounted, hent]
    exact hacc.openNew hnone f
  · exact Or.inr ⟨hfull, fun r w' hstep => by cases heq.symm.trans hstep⟩

theorem closeFile_spec (hwf : w.openedFiles.WF) (hacc : Accounted w) (fd : Int32) :
    ∃ r w', w.closeFile (closing none) fd = some (r, w') ∧ w'.openedFiles.WF ∧ Accounted w' := by
  rcases FSContext.closeFile_cases hwf (closing none) fd with
    heq | ⟨f, -, hf, ⟨errno, hclose, -⟩ | ⟨t', hwf', hent, heq⟩⟩
  · exact ⟨_, w, heq, hwf, hacc⟩
  · cases hclose
  · refine ⟨_, _, heq, hwf', ?_⟩
    rw [Accounted, hent]
    exact hacc.close hf

/-- A move to another descriptor leaves every file in one place. -/
theorem renumber_spec (hwf : w.openedFiles.WF) (hacc : Accounted w) (hne : source ≠ target)
    (hsource : w.openedFiles.lookup source = some (some f)) (hpre : f.isPreopen = false)
    (htarget : ¬ target < 0)
    (hfree : ∀ g, w.openedFiles.entries target.toInt.toNat = some g → g.isPreopen = false) :
    ∃ w', w.renumber source target = some (.ok 0, w') ∧ w'.openedFiles.WF ∧ Accounted w' ∧
      w'.openedFiles.lookup target = some (some f) := by
  obtain ⟨t', hwf', hent, heq⟩ := renumber_eq hwf hsource hpre htarget hfree
  obtain ⟨hnonneg, hf⟩ := (lookup_eq hwf).mp hsource
  -- two descriptors that differ have slots that differ
  have hslots : source.toInt.toNat ≠ target.toInt.toNat := fun h =>
    hne (by rw [← Descriptor.Table.ofNat_toNat hnonneg, h,
      Descriptor.Table.ofNat_toNat htarget])
  refine ⟨_, heq, hwf', ?_, (lookup_eq hwf').mpr ⟨htarget, ?_⟩⟩
  · rw [Accounted, hent]
    cases hold : w.openedFiles.entries target.toInt.toNat with
    | none =>
      simp only [Option.map_none, Option.toList_none, List.append_nil]
      exact hacc.move hf hslots hold
    | some g =>
      simp only [Option.map_some, Option.toList_some]
      -- the file at the target is closed first
      have hclosed := hacc.close hold
      have hsource : Function.update w.openedFiles.entries target.toInt.toNat none
          source.toInt.toNat = some f := by rw [Function.update_of_ne hslots, hf]
      have hmoved := hclosed.move hsource hslots (Function.update_self ..)
      rwa [Function.update_comm hslots.symm, Function.update_idem] at hmoved
  · change t'.entries _ = _
    rw [hent, Function.update_self]

/-! ### Runs -/

/-- An operation that leaves every file in one place. -/
def Op.Harmless (w : FSContext) : Op → Prop
  | .preopen _ | .openFile _ _ none => ∃ k < 2 ^ 31, w.openedFiles.entries k = none
  | .openFile _ _ (some _) | .closeFile _ => True
  | .renumber source target =>
    source = target → ∀ f, w.openedFiles.lookup source = some (some f) → f.isPreopen = true

/-- Every operation of a run is harmless where it is made. -/
def Harmless : FSContext → List Op → Prop
  | _, [] => True
  | w, op :: ops => op.Harmless w ∧ ∀ r w', step w op = some (r, w') → Harmless w' ops

/-- A move that succeeds leaves the file at the target. -/
def Op.Moves (w w' : FSContext) (r : Result) : Op → Prop
  | .renumber source target =>
    r = .ok 0 → w'.openedFiles.lookup target = w.openedFiles.lookup source
  | _ => True

/-- A run that does not panic, with every file in one place at every moment. -/
def Accounts : FSContext → List Op → Prop
  | w, [] => Accounted w
  | w, op :: ops =>
    Accounted w ∧ ∃ r w', step w op = some (r, w') ∧ op.Moves w w' r ∧ Accounts w' ops

/-- One operation: a harmless one keeps the ledger, any other panics or breaks it. -/
theorem step_cases (hwf : w.openedFiles.WF) (hacc : Accounted w) (op : Op) :
    (op.Harmless w ∧ ∃ r w', step w op = some (r, w') ∧ w'.openedFiles.WF ∧ Accounted w' ∧
        op.Moves w w' r) ∨
      (¬ op.Harmless w ∧ ∀ r w', step w op = some (r, w') → ¬ Accounted w') := by
  cases op with
  | preopen entry => exact insertNew_cases hwf hacc _
  | openFile fs path answer =>
    cases answer with
    | some errno => exact Or.inl ⟨trivial, _, w, rfl, hwf, hacc, trivial⟩
    | none => exact insertNew_cases hwf hacc _
  | closeFile fd =>
    obtain ⟨r, w', heq, hwf', hacc'⟩ := closeFile_spec hwf hacc fd
    exact Or.inl ⟨trivial, r, w', heq, hwf', hacc', trivial⟩
  | renumber source target =>
    rcases FSContext.renumber_cases hwf source target with
      ⟨errno, heq⟩ | ⟨f, hsource, hpre, htarget, hfree⟩
    · refine Or.inl ⟨?_, .error errno, w, heq, hwf, hacc, nofun⟩
      -- it was refused, so that it is not a move of a file to where it is
      rintro rfl f hf
      by_contra hpre
      rw [Bool.not_eq_true] at hpre
      obtain ⟨hnonneg, hent⟩ := (lookup_eq hwf).mp hf
      have hown : ∀ g, w.openedFiles.entries source.toInt.toNat = some g → g.isPreopen = false :=
        fun g hg => Option.some.inj (hent.symm.trans hg) ▸ hpre
      obtain ⟨_, -, -, hok⟩ := renumber_eq hwf hf hpre hnonneg hown
      cases heq.symm.trans hok
    · by_cases hsame : source = target
      · -- the file is closed, and put back
        subst hsame
        refine Or.inr ⟨fun h => ?_, fun r w' hstep hacc' => ?_⟩
        · rw [h rfl f hsource] at hpre
          cases hpre
        · obtain ⟨t', hwf', hent, heq⟩ := renumber_eq hwf hsource hpre htarget hfree
          cases heq.symm.trans hstep
          refine hacc'.not_closed source.toInt.toNat f ?_ ?_
          · rw [hent, Function.update_self]
          · rw [((lookup_eq hwf).mp hsource).2]
            exact List.mem_append_right _ List.mem_cons_self
      · obtain ⟨w', heq, hwf', hacc', hlookup⟩ :=
          renumber_spec hwf hacc hsame hsource hpre htarget hfree
        exact Or.inl ⟨fun h => absurd h hsame, .ok 0, w', heq, hwf', hacc',
          fun _ => hlookup.trans hsource.symm⟩

theorem accounts_iff (hwf : w.openedFiles.WF) (hacc : Accounted w) (ops : List Op) :
    Accounts w ops ↔ Harmless w ops := by
  induction ops generalizing w with
  | nil => exact iff_of_true hacc trivial
  | cons op ops ih =>
    rcases step_cases hwf hacc op with ⟨hop, r, w', heq, hwf', hacc', hmoves⟩ | ⟨hop, hbad⟩
    · constructor
      · rintro ⟨-, r₁, w₁, heq₁, -, hrest⟩
        cases heq.symm.trans heq₁
        refine ⟨hop, fun r₂ w₂ heq₂ => ?_⟩
        cases heq.symm.trans heq₂
        exact (ih hwf' hacc').mp hrest
      · rintro ⟨-, hrest⟩
        exact ⟨hacc, r, w', heq, hmoves, (ih hwf' hacc').mpr (hrest r w' heq)⟩
    · refine iff_of_false ?_ fun h => hop h.1
      rintro ⟨-, r, w', heq, -, hrest⟩
      -- whatever follows, the ledger is broken behind the operation
      refine hbad r w' heq ?_
      cases ops with
      | nil => exact hrest
      | cons _ _ => exact hrest.1

/-- Every run of a context, from the start. -/
theorem files_accounted_iff (ops : List Op) : Accounts {} ops ↔ Harmless {} ops := by
  have hempty : ∀ k, ({} : Descriptor.Table FileEntry).entries k = none := fun k =>
    (Descriptor.Table.entries_eq_none_iff Descriptor.Table.wf_empty).mpr fun ⟨_, h, _⟩ => by cases h
  refine accounts_iff Descriptor.Table.wf_empty ⟨fun fd f h => ?_, fun fd f h => ?_,
    List.nodup_nil, (fun _ h => by cases h), fun _ h => absurd h (Nat.not_lt_zero _)⟩ ops
  · cases (hempty fd).symm.trans h
  · cases (hempty fd).symm.trans h

/-- The host's root directory, and a file that was opened in it. -/
def rootFS : DirFS := ⟨[slash], List.cons_ne_nil _ _⟩

def rootFile : FileEntry := { name := [97], fs := some rootFS }

/-- The table that names this file alone. -/
def oneFile : Descriptor.Table FileEntry := ⟨[1#64], rootFile :: List.replicate 63 default⟩

/-- A file that is moved onto its own descriptor is closed and stays in the table. -/
theorem not_accounted_renumber_self :
    ¬ Accounts {} [.openFile rootFS [97] none, .renumber 0 0] := by
  have hopen : step {} (.openFile rootFS [97] none) = some (.ok 0, ⟨oneFile, 1, []⟩) := by
    decide +kernel
  have hmove : step ⟨oneFile, 1, []⟩ (.renumber 0 0) = some (.ok 0, ⟨oneFile, 1, [0]⟩) := by
    decide +kernel
  rintro ⟨-, r, w, h, -, -, r', w', h', -, hacc⟩
  cases hopen.symm.trans h
  cases hmove.symm.trans h'
  exact hacc.not_closed 0 rootFile (by decide +kernel) List.mem_cons_self

end OpenFiles

end Wasi
