import WasmRecorder.Wasi.FileTable
import WasmRecorder.Wasm.MemoryAccess

/-!
# Guest paths stay inside their mount

Every path a guest passes to WASI goes through `atPath`, which cleans it, refuses what is
rooted or escapes, and puts the name of the directory descriptor in front unless that is a
pre-open. The name was stored by an earlier open and came out of `atPath` itself, so that no
path contains `..` is an invariant of the descriptor table over whole runs.

* `Confined` — the invariant: the name of a file that is no pre-open has no `..`
  component. Every call keeps it (`Confined.run`).
* `paths_confined` — in every run, every logged path has no `..` component and is joined to
  a host path that is the mounted directory or lies below it.
-/

namespace Wasi

open Path (Bytes slash dotdot components)
open Wasm (MemoryInstance)

/-! ### Resolving a path -/

/-- A guest path, cleaned, with the trailing slash it had. -/
def resolve (pathName : Bytes) : Except Errno Bytes :=
  let cleaned := Path.clean pathName
  if ¬ Path.validPath cleaned then .error .EPERM
  else .ok (if pathName.getLast? = some slash then cleaned ++ [slash] else cleaned)

/-- A path that was resolved, in the file system it belongs to. -/
abbrev Resolved := Option DirFS × Bytes

/-- The file system and the path a call at descriptor `fd` is about. `none` is a panic. -/
def atPath (fsc : FSContext) (host : Host) (mem : MemoryInstance) (fd : Int32)
    (p pathLen : UInt32) : Option (Except Errno Resolved) := do
  match ← (mem.read p pathLen).toOption with
  | none => return .error .EFAULT
  | some b =>
    match resolve b with
    | .error errno => return .error errno
    | .ok pathName =>
      match ← fsc.openedFiles.lookup fd with
      | none => return .error .EBADF
      | some f =>
        match host.isDir f with
        | .error errno => return .error errno
        | .ok false => return .error .ENOTDIR
        | .ok true =>
          -- the pre-open's own name is the guest's, not the mount's
          return .ok (f.fs, if f.isPreopen then pathName else f.name ++ slash :: pathName)

/-! ### Calls -/

/-- The flags of `path_open` that decide what happens to the table. -/
structure OFlags where
  creat : Bool
  directory : Bool

/-- A path argument: the directory descriptor and where the path's bytes are. -/
structure PathArg where
  fd : Int32
  path : UInt32
  pathLen : UInt32

/-- The calls of a guest that resolve paths or change the descriptor table. -/
inductive Call where
  /-- A function of one path: `path_create_directory`, `path_filestat_get`,
  `path_filestat_set_times`, `path_readlink`, `path_remove_directory`, `path_symlink`,
  `path_unlink_file`. -/
  | path (arg : PathArg)
  /-- A function of two paths: `path_link`, `path_rename`. -/
  | pathPair (old new : PathArg)
  | pathOpen (arg : PathArg) (oflags : OFlags) (resultOpenedFD : UInt32)
  | fdClose (fd : Int32)
  | fdRenumber (source target : Int32)
  | sockAccept (fd : Int32)

/-- A call with the guest's memory at that moment and what the host answers. -/
structure Request where
  call : Call
  mem : MemoryInstance
  host : Host

/-- The paths a call resolved, and the table behind it unless the process panicked. -/
abbrev Effect := List Resolved × Option FSContext

namespace FSContext

variable (fsc : FSContext) (r : Request)

def atPathArg (arg : PathArg) : Option (Except Errno Resolved) :=
  atPath fsc r.host r.mem arg.fd arg.path arg.pathLen

/-- The table once a file is closed. -/
def close (fd : Int32) : Option FSContext := (fsc.closeFile r.host fd).map Prod.snd

/-- Tell the guest the number of a file that it opened. -/
def tell (resultOpenedFD : UInt32) (newFD : Int32) : Option FSContext := do
  match ← (r.mem.writeUint32Le resultOpenedFD newFD.toUInt32).toOption with
  | none => fsc.close r newFD
  | some _ => return fsc

/-- What `path_open` does with the descriptor of a file it opened: check that a directory
is one, and tell the guest its number. -/
def finishOpen (oflags : OFlags) (resultOpenedFD : UInt32) (newFD : Int32) : Option FSContext :=
  if ¬ oflags.directory then fsc.tell r resultOpenedFD newFD
  else do
    match ← fsc.openedFiles.lookup newFD with
    | none => return fsc
    | some f =>
      match r.host.isDir f with
      | .ok true => fsc.tell r resultOpenedFD newFD
      | _ => fsc.close r newFD

/-- `path_open`, once its path is resolved. -/
def openResolved (oflags : OFlags) (resultOpenedFD pathLen : UInt32) (fs : DirFS)
    (path : Bytes) : Option FSContext :=
  if pathLen = 0 then some fsc
  else if oflags.directory ∧ oflags.creat then some fsc
  else
    match fsc.openFile r.host fs path with
    | none => none
    | some (.error _, c) => some c
    | some (.ok newFD, c) => c.finishOpen r oflags resultOpenedFD newFD

/-- `path_open`. A directory of no mount has no file system to open the path in, and the
source calls through a nil interface. -/
def pathOpen (arg : PathArg) (oflags : OFlags) (resultOpenedFD : UInt32) : Effect :=
  match fsc.atPathArg r arg with
  | none => ([], none)
  | some (.error _) => ([], some fsc)
  | some (.ok (none, path)) => ([(none, path)], none)
  | some (.ok (some fs, path)) =>
    ([(some fs, path)], fsc.openResolved r oflags resultOpenedFD arg.pathLen fs path)

/-- A function that resolves paths, one after the other up to one that it cannot resolve, and
leaves the table as it is. -/
def pathsOf : List PathArg → Effect
  | [] => ([], some fsc)
  | arg :: args =>
    match fsc.atPathArg r arg with
    | none => ([], none)
    | some (.error _) => ([], some fsc)
    | some (.ok resolved) => (resolved :: (pathsOf args).1, (pathsOf args).2)

/-- One call. -/
def service : Effect :=
  match r.call with
  | .path arg => fsc.pathsOf r [arg]
  | .pathPair old new => fsc.pathsOf r [old, new]
  | .pathOpen arg oflags resultOpenedFD => fsc.pathOpen r arg oflags resultOpenedFD
  | .fdClose fd => ([], fsc.close r fd)
  | .fdRenumber source target => ([], (fsc.renumber source target).map Prod.snd)
  | .sockAccept fd => ([], (fsc.sockAccept r.host fd).map Prod.snd)

/-- The paths resolved in a run, which ends early when the process panics. -/
def run : FSContext → List Request → List Resolved
  | _, [] => []
  | fsc, r :: rs =>
    match fsc.service r with
    | (paths, none) => paths
    | (paths, some fsc') => paths ++ run fsc' rs

end FSContext

/-- The entries a guest starts with: the standard streams, its mounts under the names it
knows them by, and the sockets it may listen on. -/
def initialEntries (mounts : List (DirFS × Bytes)) (listeners : Nat) : List FileEntry :=
  ["stdin", "stdout", "stderr"].map (fun name =>
      { name := Json.encode name.toList, isPreopen := true }) ++
    mounts.map (fun (fs, guestPath) => { fs := some fs, name := guestPath, isPreopen := true }) ++
    List.replicate listeners { isPreopen := true }

/-- The context a guest starts with. -/
def initFSContext (mounts : List (DirFS × Bytes)) (listeners : Nat) : Option FSContext :=
  (initialEntries mounts listeners).foldlM (fun c f => (c.insertNew f).map Prod.snd) {}

/-! ### Paths without `..` -/

theorem dotdot_notMem_of_resolve {pathName resolved : Bytes}
    (h : resolve pathName = .ok resolved) : dotdot ∉ components resolved := by
  unfold resolve at h
  dsimp only at h
  split at h
  · cases h
  · next hvalid =>
    have hclean : dotdot ∉ components (Path.clean pathName) :=
      Path.dotdot_notMem_of_validPath (by simpa using hvalid)
    cases h
    split
    · rw [Path.components_append, List.mem_append, not_or]
      exact ⟨hclean, by decide⟩
    · exact hclean

/-- The name a file was opened under leads to no parent directory. -/
def Plain (f : FileEntry) : Prop := f.isPreopen = true ∨ dotdot ∉ components f.name

/-- The table is well-formed, and every file in it was opened under a plain name. -/
structure Confined (fsc : FSContext) : Prop where
  wf : fsc.openedFiles.WF
  plain : ∀ k f, fsc.openedFiles.entries k = some f → Plain f

/-- A resolved path is one of a mount and has no `..` component. -/
def Inside (resolved : Resolved) : Prop :=
  resolved.1.isSome ∧ dotdot ∉ components resolved.2

variable {fsc fsc' : FSContext} {r : Request}

theorem Confined.atPath {host : Host} {mem : MemoryInstance} {fd : Int32} {p pathLen : UInt32}
    {resolved : Resolved} (hfsc : Confined fsc)
    (h : atPath fsc host mem fd p pathLen = some (.ok resolved)) : Inside resolved := by
  obtain ⟨b, -, h⟩ := Option.bind_eq_some_iff.mp h
  cases b with
  | none => cases h
  | some b =>
  dsimp only at h
  split at h
  · cases h
  next pathName hres =>
  have hpath := dotdot_notMem_of_resolve hres
  obtain ⟨file, hfile, h⟩ := Option.bind_eq_some_iff.mp h
  cases file with
  | none => cases h
  | some f =>
  have hname := hfsc.plain _ f ((FSContext.lookup_eq hfsc.wf).mp hfile).2
  dsimp only at h
  split at h
  · cases h
  · cases h
  next hdir =>
  cases h
  refine ⟨?_, ?_⟩
  · change f.fs.isSome = true
    rw [Option.isSome_iff_ne_none]
    exact fun hnone => host.isDir_of_fs_none f hnone hdir
  · change dotdot ∉ components (if f.isPreopen = true then _ else _)
    split_ifs with hpre
    · exact hpath
    · rw [Path.components_append, List.mem_append, not_or]
      exact ⟨hname.resolve_left hpre, hpath⟩

/-! ### What the operations keep -/

/-- One change of the table, in which a plain entry may be written. -/
theorem Confined.update {t : Descriptor.Table FileEntry} {opened k : Nat} {closed : List Nat}
    {names : Nat → Option FileEntry} {v : Option FileEntry} (hwf : t.WF)
    (hent : t.entries = Function.update names k v) (hnames : ∀ k f, names k = some f → Plain f)
    (hv : ∀ f, v = some f → Plain f) : Confined ⟨t, opened, closed⟩ := by
  refine ⟨hwf, fun x f hx => ?_⟩
  rw [show t.entries x = _ from congrFun hent x] at hx
  rcases update_eq_some.mp hx with ⟨-, hv'⟩ | ⟨-, hx⟩
  · exact hv f hv'
  · exact hnames x f hx

theorem Confined.close {fd : Int32} (hfsc : Confined fsc) (h : fsc.close r fd = some fsc') :
    Confined fsc' := by
  obtain ⟨⟨res, c⟩, hclose, rfl⟩ := Option.map_eq_some_iff.mp h
  rcases FSContext.closeFile_cases hfsc.wf r.host fd with
    heq | ⟨f, -, -, ⟨errno, -, heq⟩ | ⟨t', hwf', hent, heq⟩⟩ <;> cases heq.symm.trans hclose
  · exact hfsc
  · exact ⟨hfsc.wf, hfsc.plain⟩
  · exact .update hwf' hent hfsc.plain nofun

theorem Confined.insertNew {f : FileEntry} {res : Except Errno Int32} (hfsc : Confined fsc)
    (hf : Plain f) (h : fsc.insertNew f = some (res, fsc')) : Confined fsc' := by
  rcases FSContext.insertNew_spec hfsc.wf f with ⟨k, -, -, t', hwf', hent, heq⟩ | ⟨-, heq⟩ <;>
    cases heq.symm.trans h
  refine .update hwf' hent hfsc.plain ?_
  rintro _ ⟨⟩
  exact hf

theorem Confined.renumber {source target : Int32} {res : Except Errno Int32} (hfsc : Confined fsc)
    (h : fsc.renumber source target = some (res, fsc')) : Confined fsc' := by
  rcases FSContext.renumber_cases hfsc.wf source target with
    ⟨errno, heq⟩ | ⟨f, hsource, hpre, htarget, hfree⟩
  · cases heq.symm.trans h
    exact hfsc
  · obtain ⟨t', hwf', hent, heq⟩ := FSContext.renumber_eq hfsc.wf hsource hpre htarget hfree
    cases heq.symm.trans h
    have hf := hfsc.plain _ f ((FSContext.lookup_eq hfsc.wf).mp hsource).2
    refine .update hwf' hent (fun k g hg => ?_) ?_
    · rcases update_eq_some.mp hg with ⟨-, ⟨⟩⟩ | ⟨-, hg⟩
      exact hfsc.plain k g hg
    · rintro _ ⟨⟩
      exact hf

theorem Confined.openFile {host : Host} {fs : DirFS} {path : Bytes} {res : Except Errno Int32}
    (hfsc : Confined fsc) (hpath : dotdot ∉ components path)
    (h : fsc.openFile host fs path = some (res, fsc')) : Confined fsc' := by
  unfold FSContext.openFile at h
  split at h
  · cases h
    exact hfsc
  · refine hfsc.insertNew (Or.inr ?_) h
    dsimp only
    split
    · decide
    · exact hpath

theorem Confined.tell {resultOpenedFD : UInt32} {newFD : Int32} (hfsc : Confined fsc)
    (h : fsc.tell r resultOpenedFD newFD = some fsc') : Confined fsc' := by
  obtain ⟨written, -, h⟩ := Option.bind_eq_some_iff.mp h
  cases written with
  | none => exact hfsc.close h
  | some _ =>
    cases h
    exact hfsc

theorem Confined.finishOpen {oflags : OFlags} {resultOpenedFD : UInt32} {newFD : Int32}
    (hfsc : Confined fsc) (h : fsc.finishOpen r oflags resultOpenedFD newFD = some fsc') :
    Confined fsc' := by
  unfold FSContext.finishOpen at h
  split at h
  · exact hfsc.tell h
  obtain ⟨file, -, h⟩ := Option.bind_eq_some_iff.mp h
  cases file with
  | none =>
    cases h
    exact hfsc
  | some f =>
    dsimp only at h
    split at h
    · exact hfsc.tell h
    · exact hfsc.close h

theorem Confined.openResolved {oflags : OFlags} {resultOpenedFD pathLen : UInt32} {fs : DirFS}
    {path : Bytes} (hfsc : Confined fsc) (hpath : dotdot ∉ components path)
    (h : fsc.openResolved r oflags resultOpenedFD pathLen fs path = some fsc') :
    Confined fsc' := by
  unfold FSContext.openResolved at h
  split at h
  · cases h
    exact hfsc
  split at h
  · cases h
    exact hfsc
  split at h
  · cases h
  · next hopen =>
    cases h
    exact hfsc.openFile hpath hopen
  · next hopen => exact (hfsc.openFile hpath hopen).finishOpen h

theorem Confined.sockAccept {host : Host} {fd : Int32} {res : Except Errno Int32}
    (hfsc : Confined fsc) (h : fsc.sockAccept host fd = some (res, fsc')) : Confined fsc' := by
  obtain ⟨file, -, h⟩ := Option.bind_eq_some_iff.mp h
  cases file with
  | none =>
    cases h
    exact hfsc
  | some f =>
    dsimp only at h
    split at h
    · exact hfsc.insertNew (Or.inr (by decide)) h
    · cases h
      exact hfsc

/-- What a call may do: resolve paths of mounts, and leave a table of plain names. -/
def Keeps (e : Effect) : Prop :=
  (∀ resolved ∈ e.1, Inside resolved) ∧ ∀ fsc', e.2 = some fsc' → Confined fsc'

theorem Keeps.of_nil {next : Option FSContext} (h : ∀ fsc', next = some fsc' → Confined fsc') :
    Keeps ([], next) :=
  ⟨fun _ hmem => absurd hmem List.not_mem_nil, h⟩

theorem Keeps.cons {resolved : Resolved} {paths : List Resolved} {next : Option FSContext}
    (hin : Inside resolved) (h : Keeps (paths, next)) : Keeps (resolved :: paths, next) :=
  ⟨List.forall_mem_cons.mpr ⟨hin, h.1⟩, h.2⟩

theorem Confined.unchanged (hfsc : Confined fsc) : Keeps ([], some fsc) := by
  refine .of_nil ?_
  rintro _ ⟨⟩
  exact hfsc

theorem Confined.pathsOf (hfsc : Confined fsc) (args : List PathArg) :
    Keeps (fsc.pathsOf r args) := by
  induction args with
  | nil => exact hfsc.unchanged
  | cons arg args ih =>
    unfold FSContext.pathsOf
    split
    · exact .of_nil nofun
    · exact hfsc.unchanged
    · next hres => exact .cons (hfsc.atPath hres) ih

theorem Confined.pathOpen (hfsc : Confined fsc) (arg : PathArg) (oflags : OFlags)
    (resultOpenedFD : UInt32) : Keeps (fsc.pathOpen r arg oflags resultOpenedFD) := by
  unfold FSContext.pathOpen
  split
  · exact .of_nil nofun
  · exact hfsc.unchanged
  · next hres => exact .cons (hfsc.atPath hres) (.of_nil nofun)
  · next hres =>
    have hin := hfsc.atPath hres
    exact .cons hin (.of_nil fun fsc' h => hfsc.openResolved hin.2 h)

theorem Confined.service (hfsc : Confined fsc) : Keeps (fsc.service r) := by
  unfold FSContext.service
  cases r.call with
  | path arg => exact hfsc.pathsOf [arg]
  | pathPair old new => exact hfsc.pathsOf [old, new]
  | pathOpen arg oflags resultOpenedFD => exact hfsc.pathOpen arg oflags resultOpenedFD
  | fdClose fd => exact .of_nil fun fsc' h => hfsc.close h
  | fdRenumber source target =>
    refine .of_nil fun fsc' h => ?_
    obtain ⟨⟨res, c⟩, hmove, rfl⟩ := Option.map_eq_some_iff.mp h
    exact hfsc.renumber hmove
  | sockAccept fd =>
    refine .of_nil fun fsc' h => ?_
    obtain ⟨⟨res, c⟩, hacc, rfl⟩ := Option.map_eq_some_iff.mp h
    exact hfsc.sockAccept hacc

theorem Confined.run (hfsc : Confined fsc) (rs : List Request) :
    ∀ resolved ∈ fsc.run rs, Inside resolved := by
  induction rs generalizing fsc with
  | nil => exact fun _ hmem => absurd hmem List.not_mem_nil
  | cons r rs ih =>
    intro resolved hmem
    obtain ⟨hpaths, hnext⟩ := hfsc.service (r := r)
    unfold FSContext.run at hmem
    split at hmem
    · next hsvc =>
      rw [hsvc] at hpaths
      exact hpaths resolved hmem
    · next fsc' hsvc =>
      rw [hsvc] at hpaths hnext
      rcases List.mem_append.mp hmem with hmem | hmem
      · exact hpaths resolved hmem
      · exact ih (hnext fsc' rfl) resolved hmem

theorem Confined.insertAll {entries : List FileEntry} (hfsc : Confined fsc)
    (hentries : ∀ f ∈ entries, Plain f)
    (h : entries.foldlM (fun c f => (c.insertNew f).map Prod.snd) fsc = some fsc') :
    Confined fsc' := by
  induction entries generalizing fsc with
  | nil =>
    cases h
    exact hfsc
  | cons f entries ih =>
    obtain ⟨hf, hentries⟩ := List.forall_mem_cons.mp hentries
    rw [List.foldlM_cons] at h
    obtain ⟨c, hc, h⟩ := Option.bind_eq_some_iff.mp h
    obtain ⟨⟨res, c⟩, hinsert, rfl⟩ := Option.map_eq_some_iff.mp hc
    exact ih (hfsc.insertNew hf hinsert) hentries h

theorem confined_initFSContext {mounts : List (DirFS × Bytes)} {listeners : Nat}
    (h : initFSContext mounts listeners = some fsc) : Confined fsc := by
  have hempty : Confined {} := by
    refine ⟨Descriptor.Table.wf_empty, fun k f hf => ?_⟩
    rw [(Descriptor.Table.entries_eq_none_iff Descriptor.Table.wf_empty).mpr
      fun ⟨_, hmask, _⟩ => by cases hmask] at hf
    cases hf
  refine hempty.insertAll (fun f hf => Or.inl ?_) h
  simp only [initialEntries, List.mem_append, List.mem_map, List.mem_replicate] at hf
  rcases hf with (⟨_, _, rfl⟩ | ⟨_, _, rfl⟩) | ⟨_, rfl⟩ <;> rfl

/-- **Guest paths stay inside their mount.** In every run of path calls, opens, closes,
renumberings and accepted connections, over any mounts, any memory contents and any answers
of the host, every path `atPath` returns belongs to a mount and has no `..` component, and
the host path it is joined to is, cleaned, the cleaned mount directory or a path below it. -/
theorem paths_confined (mounts : List (DirFS × Bytes)) (listeners : Nat) (rs : List Request) :
    ∀ fsc ∈ initFSContext mounts listeners, ∀ resolved ∈ fsc.run rs,
      dotdot ∉ components resolved.2 ∧
        ∃ d, resolved.1 = some d ∧
          Path.Under (Path.clean d.dir) (Path.clean (d.join resolved.2)) := by
  intro fsc hfsc resolved hmem
  obtain ⟨hfs, hpath⟩ := (confined_initFSContext hfsc).run rs resolved hmem
  obtain ⟨d, hd⟩ := Option.isSome_iff_exists.mp hfs
  exact ⟨hpath, d, hd, d.join_under hpath⟩

/-- The host directory `/mnt`. -/
def mntFS : DirFS := ⟨Json.encode "/mnt".toList, by decide⟩

/-- A host on which every file of a mount is a directory and everything succeeds. -/
def willingHost : Host where
  isDir f := .ok f.fs.isSome
  isDir_of_fs_none f hf := by simp [hf]
  openFile _ := none
  close _ := none
  accept := true

/-- The guest opens `a` in its mount and creates `b/../c` in it. -/
def nestedRequests : List Request :=
  [{ call := .pathOpen ⟨3, 0, 1⟩ ⟨false, true⟩ 0, mem := ⟨Json.encode "a...".toList, 1⟩,
     host := willingHost },
   { call := .path ⟨4, 0, 6⟩, mem := ⟨Json.encode "b/../c".toList, 1⟩, host := willingHost }]

theorem paths_confined_nested :
    ∃ fsc ∈ initFSContext [(mntFS, [slash])] 0,
      (some mntFS, Json.encode "a/c".toList) ∈ fsc.run nestedRequests ∧
      Path.Under (Path.clean mntFS.dir) (Path.clean (mntFS.join (Json.encode "a/c".toList))) := by
  have hruns : (initFSContext [(mntFS, [slash])] 0).map (·.run nestedRequests) =
      some [(some mntFS, Json.encode "a".toList), (some mntFS, Json.encode "a/c".toList)] := by
    decide +kernel
  obtain ⟨fsc, hfsc, hrun⟩ := Option.map_eq_some_iff.mp hruns
  have hmem : (some mntFS, Json.encode "a/c".toList) ∈ fsc.run nestedRequests := by
    rw [hrun]
    exact List.mem_cons_of_mem _ List.mem_cons_self
  obtain ⟨-, d, hd, hunder⟩ := paths_confined [(mntFS, [slash])] 0 nestedRequests fsc hfsc _ hmem
  cases hd
  exact ⟨fsc, hfsc, hmem, hunder⟩

end Wasi
