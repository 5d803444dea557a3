import WasmRecorder.Descriptor.Table
import WasmRecorder.Lib.Path

/-!
# The file descriptors of a guest

The table that maps a guest's descriptors to open files (`internal/sys`), the file system of a
mounted host directory (`internal/sysfs`), and the operations that change the table.

* `DirFS` — a mount. `DirFS.join` makes the host path of a guest path.
* `FSContext.openFile`, `renumber`, `closeFile`, `sockAccept` — the operations, with what the host
  answers given by a `Host`. A result `none` is a panic.
* `insertNew_spec`, `closeFile_cases`, `renumber_cases` — what they do to the map that the table
  stands for. Only an insertion into a full table panics.
-/

namespace Wasi

open Path (Bytes slash dot)

/-! ### Mounted directories -/

/-- The file system of a host directory. The constructor looks at the last character of the
directory's name, so there is one. -/
structure DirFS where
  dir : Bytes
  dir_ne_nil : dir ≠ []
  deriving DecidableEq

namespace DirFS

/-- The directory's name with a trailing separator. -/
def cleanedDir (d : DirFS) : Bytes :=
  if d.dir.getLast d.dir_ne_nil = slash then d.dir else d.dir ++ [slash]

/-- The host path of a guest path. -/
def join (d : DirFS) (path : Bytes) : Bytes :=
  if path = [] ∨ path = dot ∨ path = [slash] then
    if d.cleanedDir = [slash] then [slash] else d.cleanedDir.dropLast
  else d.cleanedDir ++ path

theorem exists_trimmed (d : DirFS) :
    ∃ d', d.cleanedDir = d' ++ [slash] ∧ Path.Trimmed d.dir d' := by
  unfold cleanedDir
  split
  · next hlast =>
    refine ⟨d.dir.dropLast, ?_, Or.inl ?_⟩ <;>
      rw [← hlast, List.dropLast_append_getLast d.dir_ne_nil]
  · exact ⟨d.dir, rfl, Or.inr ⟨rfl, d.dir_ne_nil⟩⟩

theorem join_under (d : DirFS) {path : Bytes} (hp : Path.dotdot ∉ Path.components path) :
    Path.Under (Path.clean d.dir) (Path.clean (d.join path)) := by
  obtain ⟨d', hclean, htrim⟩ := d.exists_trimmed
  unfold join
  split
  · -- the mounted directory itself, written without the separator unless it is the root
    split
    · next hroot =>
      rw [hclean] at hroot
      obtain rfl : d' = [] := by simpa using hroot
      rcases htrim with hdir | ⟨hdir, hne⟩
      · rw [hdir]
        exact Or.inl rfl
      · exact absurd hdir hne
    · next hroot =>
      rw [hclean, List.dropLast_concat]
      have hne : d' ≠ [] := by
        rintro rfl
        exact hroot hclean
      rw [Path.clean_trimmed htrim hne]
      exact Or.inl rfl
  · rw [hclean, List.append_assoc]
    exact Path.clean_append_under htrim hp

end DirFS

/-! ### Open files -/

/-- The error numbers the modelled functions return by themselves, and those the host
answers with. -/
inductive Errno where
  | EFAULT | EPERM | EBADF | ENOTDIR | EINVAL | ENOTSUP | ENOENT | ENOSYS
  | host (errno : Nat)
  deriving DecidableEq, Repr

/-- An open file. `fs` is absent for standard streams and sockets. -/
structure FileEntry where
  /-- The number of files that were opened before, by which a file is known. -/
  file : Nat := 0
  /-- The path up to the pre-open, or the name of the pre-open. -/
  name : Bytes := []
  isPreopen : Bool := false
  fs : Option DirFS := none
  deriving DecidableEq, Inhabited

/-- What the host answers while one call is serviced. A file of no mount is a stream or a
socket, never a directory. -/
structure Host where
  isDir : FileEntry → Except Errno Bool
  isDir_of_fs_none : ∀ f, f.fs = none → isDir f ≠ .ok true
  /-- The error of opening a host path, if any. -/
  openFile : Bytes → Option Errno
  /-- The error of closing a file, if any. -/
  close : FileEntry → Option Errno
  /-- Accepting a connection succeeds. -/
  accept : Bool

/-- A context, with the number of files that were opened and the files that `Close` was called
on. -/
structure FSContext where
  openedFiles : Descriptor.Table FileEntry := {}
  opened : Nat := 0
  closed : List Nat := []
  deriving DecidableEq

namespace FSContext

/-- What an operation leaves: nothing when the process panicked. One that returns no descriptor
returns 0 here. -/
abbrev Outcome := Option (Except Errno Int32 × FSContext)

/-- Put a new file into the table. -/
def insertNew (c : FSContext) (f : FileEntry) : Outcome := do
  let ((newFD, ok), files) ← c.openedFiles.insert { f with file := c.opened }
  let c := { c with openedFiles := files, opened := c.opened + 1 }
  return (if ok then .ok newFD else .error .EBADF, c)

/-- Open a file into the table. -/
def openFile (c : FSContext) (host : Host) (fs : DirFS) (path : Bytes) : Outcome :=
  match host.openFile (fs.join path) with
  | some errno => some (.error errno, c)
  | none => c.insertNew { fs := some fs, name := if path = [slash] ∨ path = dot then [] else path }

/-- Close a file. One that does not close stays. -/
def closeFile (c : FSContext) (host : Host) (fd : Int32) : Outcome := do
  match ← c.openedFiles.lookup fd with
  | none => return (.error .EBADF, c)
  | some f =>
    let c := { c with closed := c.closed ++ [f.file] }
    match host.close f with
    | some errno => return (.error errno, c)
    | none =>
      let files ← c.openedFiles.delete fd
      return (.ok 0, { c with openedFiles := files })

/-- Move the file at `source` to `target`, once the file there is closed. -/
def renumber (c : FSContext) (source target : Int32) : Outcome := do
  match ← c.openedFiles.lookup source with
  | none => return (.error .EBADF, c)
  | some sourceFile =>
    if target < 0 then return (.error .EBADF, c)
    if sourceFile.isPreopen then return (.error .ENOTSUP, c)
    let targetFile ← c.openedFiles.lookup target
    if targetFile.any (·.isPreopen) then return (.error .ENOTSUP, c)
    -- an error of closing is dropped
    let closed := c.closed ++ (targetFile.map (·.file)).toList
    let files ← c.openedFiles.delete source
    let (ok, files) ← files.insertAt sourceFile target
    let c := { c with openedFiles := files, closed }
    return (if ok then .ok 0 else .error .EBADF, c)

/-- The connection a listening socket accepts. -/
def sockAccept (c : FSContext) (host : Host) (fd : Int32) : Outcome := do
  match ← c.openedFiles.lookup fd with
  | none => return (.error .EBADF, c)
  | some f => if f.isPreopen ∧ host.accept then c.insertNew {} else return (.error .EBADF, c)

/-! ### What the operations do to the map -/

variable {c : FSContext} {fd source target : Int32} {f : FileEntry}

theorem lookup_eq (hwf : c.openedFiles.WF) :
    c.openedFiles.lookup fd = some (some f) ↔
      ¬ fd < 0 ∧ c.openedFiles.entries fd.toInt.toNat = some f := by
  rw [Descriptor.Table.lookup_spec hwf, Option.some.injEq]
  split
  · next h => exact iff_of_false nofun fun h' => h'.1 h
  · next h => exact (and_iff_right h).symm

/-- An insertion takes a free descriptor, and panics if there is none. -/
theorem insertNew_spec (hwf : c.openedFiles.WF) (f : FileEntry) :
    (∃ k < 2 ^ 31, c.openedFiles.entries k = none ∧ ∃ t', t'.WF ∧
        t'.entries =
          Function.update c.openedFiles.entries k (some { f with file := c.opened }) ∧
        c.insertNew f = some (.ok (Int32.ofNat k), ⟨t', c.opened + 1, c.closed⟩)) ∨
      (¬ ∃ k < 2 ^ 31, c.openedFiles.entries k = none) ∧ c.insertNew f = none := by
  rcases Descriptor.Table.insert_spec hwf { f with file := c.opened } with
    ⟨k, hk, hfree, -, t', heq, hwf', hent⟩ | ⟨hfull, heq⟩
  · -- the table takes the first key that is free
    refine Or.inl ⟨k, hk, (Descriptor.Table.entries_eq_none_iff hwf).mpr hfree, t', hwf', hent, ?_⟩
    rw [insertNew, heq]
    simp only [Option.bind_eq_bind, Option.bind_some, Option.pure_def, if_true]
  · refine Or.inr ⟨fun ⟨k, hk, hnone⟩ =>
      (Descriptor.Table.entries_eq_none_iff hwf).mp hnone (hfull k hk), ?_⟩
    rw [insertNew, heq]
    rfl

/-- Nothing is closed, a file does not close and stays, or it is taken out. -/
theorem closeFile_cases (hwf : c.openedFiles.WF) (host : Host) (fd : Int32) :
    c.closeFile host fd = some (.error .EBADF, c) ∨
      ∃ f, ¬ fd < 0 ∧ c.openedFiles.entries fd.toInt.toNat = some f ∧
        ((∃ errno, host.close f = some errno ∧ c.closeFile host fd =
            some (.error errno, { c with closed := c.closed ++ [f.file] })) ∨
          ∃ t', t'.WF ∧
            t'.entries = Function.update c.openedFiles.entries fd.toInt.toNat none ∧
            c.closeFile host fd = some (.ok 0, ⟨t', c.opened, c.closed ++ [f.file]⟩)) := by
  rw [closeFile]
  cases hfile : c.openedFiles.lookup fd with
  | none => rw [Descriptor.Table.lookup_spec hwf] at hfile; cases hfile
  | some file =>
    cases file with
    | none => exact Or.inl rfl
    | some f =>
      obtain ⟨hnonneg, hf⟩ := (lookup_eq hwf).mp hfile
      refine Or.inr ⟨f, hnonneg, hf, ?_⟩
      simp only [Option.bind_eq_bind, Option.bind_some, Option.pure_def]
      cases hclose : host.close f with
      | some errno => exact Or.inl ⟨errno, rfl, rfl⟩
      | none =>
        obtain ⟨t', heq, hwf', hent⟩ := Descriptor.Table.delete_spec hwf fd
        rw [if_neg hnonneg] at hent
        exact Or.inr ⟨t', hwf', hent, by simp only [heq, Option.bind_some]⟩

/-- A move that is made closes the file at the target first. -/
theorem renumber_eq (hwf : c.openedFiles.WF) (hsource : c.openedFiles.lookup source = some (some f))
    (hpre : f.isPreopen = false) (htarget : ¬ target < 0)
    (hfree : ∀ g, c.openedFiles.entries target.toInt.toNat = some g → g.isPreopen = false) :
    ∃ t', t'.WF ∧ t'.entries = Function.update (Function.update c.openedFiles.entries
        source.toInt.toNat none) target.toInt.toNat (some f) ∧
      c.renumber source target = some (.ok 0, ⟨t', c.opened, c.closed ++
        ((c.openedFiles.entries target.toInt.toNat).map (·.file)).toList⟩) := by
  obtain ⟨t₁, heq₁, hwf₁, hent₁⟩ := Descriptor.Table.delete_spec hwf source
  obtain ⟨t₂, heq₂, hwf₂, hent₂⟩ := Descriptor.Table.insertAt_spec hwf₁ f htarget
  rw [if_neg ((lookup_eq hwf).mp hsource).1] at hent₁
  refine ⟨t₂, hwf₂, hent₁ ▸ hent₂, ?_⟩
  -- none of the tests in front of the move fails
  have hany : (c.openedFiles.entries target.toInt.toNat).any (·.isPreopen) = false := by
    cases h : c.openedFiles.entries target.toInt.toNat with
    | none => rfl
    | some g => exact hfree g h
  rw [renumber, hsource, Descriptor.Table.lookup_spec hwf target, if_neg htarget]
  simp only [Option.bind_eq_bind, Option.bind_some, Option.pure_def, if_neg htarget, hpre,
    Bool.false_eq_true, if_false, hany, heq₁, heq₂, if_true]

/-- A move is refused and changes nothing, or it is made. -/
theorem renumber_cases (hwf : c.openedFiles.WF) (source target : Int32) :
    (∃ errno, c.renumber source target = some (.error errno, c)) ∨
      ∃ f, c.openedFiles.lookup source = some (some f) ∧ f.isPreopen = false ∧ ¬ target < 0 ∧
        ∀ g, c.openedFiles.entries target.toInt.toNat = some g → g.isPreopen = false := by
  have hsource := Descriptor.Table.lookup_spec hwf source
  cases hfile : c.openedFiles.lookup source with
  | none => rw [hfile] at hsource; cases hsource
  | some file =>
    rw [renumber, hfile]
    simp only [Option.bind_eq_bind, Option.bind_some, Option.pure_def]
    cases file with
    | none => exact Or.inl ⟨_, rfl⟩
    | some f =>
      dsimp only
      by_cases htarget : target < 0
      · exact Or.inl ⟨_, if_pos htarget⟩
      by_cases hpre : f.isPreopen = true
      · exact Or.inl ⟨.ENOTSUP, by rw [if_neg htarget, if_pos hpre]⟩
      rw [if_neg htarget, if_neg hpre, Descriptor.Table.lookup_spec hwf target, if_neg htarget,
        Option.bind_some]
      by_cases hany : (c.openedFiles.entries target.toInt.toNat).any (·.isPreopen) = true
      · exact Or.inl ⟨.ENOTSUP, by rw [if_pos hany]⟩
      · refine Or.inr ⟨f, rfl, Bool.not_eq_true _ ▸ hpre, htarget, fun g hg => ?_⟩
        rw [hg] at hany
        exact Bool.not_eq_true _ ▸ hany

end FSContext

/-- What a map holds after one change. -/
theorem update_eq_some {names : Nat → Option FileEntry} {fd x : Nat} {v : Option FileEntry}
    {e : FileEntry} :
    Function.update names fd v x = some e ↔ x = fd ∧ v = some e ∨ x ≠ fd ∧ names x = some e := by
  by_cases hx : x = fd
  · subst hx
    simp
  · simp [hx]

end Wasi
