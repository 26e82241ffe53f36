import GoArchive.Mounttree.Host

/-!
# `SwitchRoot`

`SwitchRoot(path)` makes `path` the root of the process. Unless `path` is a mount point it
bind-mounts `path` onto itself; it creates a directory `.pivot_root*` in `path` and calls
`pivot_root`, which moves the old root there; then it changes to the new root, makes the
old root private and detaches it. When the bind mount or `pivot_root` fails it falls back
to `chroot` (`realChroot`). A deferred function detaches the old root if it is still
mounted and removes the directory.

The model runs `SwitchRoot` against an environment that can make every system call fail
at its call site and that draws the random part of the name `os.MkdirTemp` creates. The
body and the deferred function are separate definitions: the body sets the result and
leaves `mounted` and `pivotDir` to the deferred function, which writes the variable `err`
of `SwitchRoot`. That variable is not the result, which is unnamed, so nothing the
deferred function writes to it reaches the caller.

The errors of the system calls are their `Errno`; the `*PathError` of the `os` package
adds the name of the operation and the path to the text, which the model leaves out.

## Main definitions

* `Mounttree.Env` — the outcome of each call site and the name `os.MkdirTemp` draws
* `Mounttree.realChroot`, `Mounttree.switchRoot` — the two functions of the source
* `Mounttree.pivot` — the body of `SwitchRoot` from `pivot_root` on, and
  `Mounttree.cleanup`, the function it defers

## Main results

* `realChroot_cases`, `pivot_cases`, `switchRootPivot_cases`, `switchRoot_cases` — every
  way each part of `SwitchRoot` ends
* `cleanup_frame` — what the deferred function does to the host
* `pivot_full` — what the full pivot leaves: the old root detached, no other mount moved
* `pivot_dirs` — what every exit of the body leaves of the directories

The results about whole runs of `SwitchRoot` are in `GoArchive.Mounttree.Runs`.
-/

namespace GoArchive.Mounttree

open Host

/-- The call sites of the system calls in `SwitchRoot` and `realChroot`. -/
inductive Site where
  | mounted
  | bindMount
  | mkdirTemp
  | pivotRoot
  | removeFailedPivot
  | chroot
  | chrootChdir
  | chdir
  | makePrivate
  | unmount
  | cleanupUnmount
  | cleanupRemove
  deriving DecidableEq, Repr

/-- What the environment decides: an error forced at a call site, and the random part of
the name `os.MkdirTemp` ends on, in decimal digits as `nextRandom` writes it. -/
structure Env where
  fault : Site → Option Errno
  random : String
  random_digits : ∀ c ∈ random.toList, c.isDigit := by decide

/-- The name `os.MkdirTemp(path, ".pivot_root")` ends on is a path element. -/
theorem Env.name_isElement (env : Env) : IsElement (".pivot_root" ++ env.random) := by
  have happ : (".pivot_root" ++ env.random).toList = ".pivot_root".toList ++ env.random.toList :=
    rfl
  -- `.pivot_root` followed by digits: longer than `..`, and without a separator
  refine ⟨?_, ?_, ?_, fun h => ?_⟩
  iterate 3 (intro h; simpa [happ] using congrArg String.toList h)
  rcases List.mem_append.1 (happ ▸ h) with h | h
  · exact absurd h (by decide)
  · exact absurd (env.random_digits _ h) (by decide)

/-- A system call at `site`: the forced error, or what the kernel does. -/
def Env.call {α : Type} (env : Env) (site : Site) (kernel : Except Errno α) :
    Except Errno α :=
  match env.fault site with
  | some e => .error e
  | none => kernel

theorem Env.call_eq_ok {α : Type} {env : Env} {site : Site} {kernel : Except Errno α} {a : α}
    (h : env.call site kernel = .ok a) : env.fault site = none ∧ kernel = .ok a := by
  unfold Env.call at h
  split at h
  · cases h
  · exact ⟨‹_›, h⟩

theorem Env.call_of_fault {α : Type} {env : Env} {site : Site} (h : env.fault site = none)
    (kernel : Except Errno α) : env.call site kernel = kernel := by
  simp [Env.call, h]

/-- `realChroot(path)`: `chroot(path)`, then `chdir("/")`. -/
def realChroot (env : Env) (path : Path) (s : Host) : Host × Option String :=
  match env.call .chroot (s.chroot path) with
  | .error e => (s, some ("error after fallback to chroot: " ++ e.text))
  | .ok s =>
    match env.call .chrootChdir (s.chdir .root) with
    | .error e => (s, some ("error changing to new root after chroot: " ++ e.text))
    | .ok s => (s, none)

/-- Where the body of `SwitchRoot` leaves off once `pivotDir` exists: the host, the
variables `mounted` and `pivotDir` that the deferred function reads, and the result. -/
structure Exit where
  host : Host
  mounted : Bool
  pivotDir : Path
  result : Option String

/-- The body of `SwitchRoot` from `unix.PivotRoot(path, pivotDir)` on. -/
def pivot (env : Env) (path pivotDir : Path) (s : Host) : Exit :=
  match env.call .pivotRoot (s.pivotRoot path pivotDir) with
  | .error _ =>
    match env.call .removeFailedPivot (s.remove pivotDir) with
    | .error e => ⟨s, false, pivotDir, some ("error cleaning up after failed pivot: " ++ e.text)⟩
    | .ok s =>
      let r := realChroot env path s
      ⟨r.1, false, pivotDir, r.2⟩
  | .ok s =>
    let pivotDir := pivotDir.joinRootBase
    match env.call .chdir (s.chdir .root) with
    | .error e => ⟨s, true, pivotDir, some ("error changing to new root: " ++ e.text)⟩
    | .ok s =>
      match env.call .makePrivate (s.makePrivate pivotDir) with
      | .error e =>
        ⟨s, true, pivotDir, some ("error making old root private after pivot: " ++ e.text)⟩
      | .ok s =>
        match env.call .unmount (s.unmount pivotDir) with
        | .error e =>
          ⟨s, true, pivotDir, some ("error while unmounting old root after pivot: " ++ e.text)⟩
        | .ok s => ⟨s, false, pivotDir, none⟩

/-- The function `SwitchRoot` defers, run on where the body left off with `err` as it
stands: the host it leaves, and `err` as it leaves it. -/
def cleanup (env : Env) (x : Exit) (err : Option String) : Host × Option String :=
  let unmounted : Except Errno Host :=
    if x.mounted then env.call .cleanupUnmount (x.host.unmount x.pivotDir) else .ok x.host
  match unmounted with
  | .error e => (x.host, if err = none then some e.text else err)
  | .ok s =>
    match env.call .cleanupRemove (s.remove x.pivotDir) with
    | .error e =>
      if e ≠ .ENOENT then
        (s, if err = none then some ("error cleaning up after pivot: " ++ e.text) else err)
      else (s, err)
    | .ok s => (s, err)

/-- `SwitchRoot` from `os.MkdirTemp` on: create `pivotDir` in `path`, defer the cleanup,
and pivot. The variable `err` the deferred function sees is the error of `os.MkdirTemp`,
`nil` once the directory exists; what the deferred function leaves in it is not the
result. -/
def switchRootPivot (env : Env) (path : Path) (s : Host) : Host × Option String :=
  match env.call .mkdirTemp (s.mkdirTemp path (".pivot_root" ++ env.random) env.name_isElement) with
  | .error e => (s, some ("error setting up pivot dir: " ++ e.text))
  | .ok (s, pivotDir) =>
    let x := pivot env path pivotDir s
    ((cleanup env x none).1, x.result)

/-- `SwitchRoot(path)`: bind-mount `path` onto itself unless it is a mount point, falling
back to `realChroot` when that fails, then pivot. The error of `mountinfo.Mounted` is
dropped and reads as "not mounted". -/
def switchRoot (env : Env) (path : Path) (s : Host) : Host × Option String :=
  let mounted : Bool :=
    match env.fault .mounted with
    | some _ => false
    | none => s.mounted path
  if mounted then switchRootPivot env path s
  else
    match env.call .bindMount (s.bindMount path) with
    | .error _ => realChroot env path s
    | .ok s => switchRootPivot env path s

/-! ## What each part of `SwitchRoot` can do -/

section Parts

variable {env : Env} {path : Path} {s : Host}

/-- Every way `realChroot` ends: `chroot` fails; `chroot` succeeds and `chdir` fails; or both
succeed and it returns `nil`. -/
theorem realChroot_cases (env : Env) (path : Path) (s : Host) :
    (∃ e, realChroot env path s = (s, some e)) ∨
      (∃ s₁ e, s.chroot path = .ok s₁ ∧ realChroot env path s = (s₁, some e)) ∨
      ∃ s₁ s₂, s.chroot path = .ok s₁ ∧ s₁.chdir .root = .ok s₂ ∧
        realChroot env path s = (s₂, none) := by
  unfold realChroot
  rcases h₁ : env.call .chroot (s.chroot path) with e | s₁
  · exact .inl ⟨_, rfl⟩
  dsimp only
  rcases h₂ : env.call .chrootChdir (s₁.chdir .root) with e | s₂
  · exact .inr (.inl ⟨s₁, _, (Env.call_eq_ok h₁).2, rfl⟩)
  · exact .inr (.inr ⟨s₁, s₂, (Env.call_eq_ok h₁).2, (Env.call_eq_ok h₂).2, rfl⟩)

/-- A `nil` from `realChroot` leaves the process at `path`, root and working directory,
with the mounts and directories as they were. -/
theorem realChroot_nil (h : (realChroot env path s).2 = none) :
    (realChroot env path s).1.root = s.resolve path ∧
      (realChroot env path s).1.cwd = s.resolve path ∧
      (realChroot env path s).1.mounts = s.mounts ∧
      (realChroot env path s).1.dirs = s.dirs ∧ (realChroot env path s).1.nextId = s.nextId := by
  rcases realChroot_cases env path s with ⟨e, heq⟩ | ⟨s₁, e, -, heq⟩ | ⟨s₁, s₂, h₁, h₂, heq⟩
  · simp [heq] at h
  · simp [heq] at h
  rw [heq]
  obtain ⟨hm₁, hd₁, -, hr₁, -, hn₁⟩ := chroot_eq_ok h₁
  obtain ⟨hm₂, hd₂, -, hr₂, hc₂, hn₂⟩ := chdir_eq_ok h₂
  exact ⟨hr₂.trans hr₁, by rw [hc₂, resolve_root, hr₁], hm₂.trans hm₁, hd₂.trans hd₁,
    hn₂.trans hn₁⟩

/-- Whatever `realChroot` returns, the mounts and directories are as they were, and a path
reads as it did or as it does from `path`. -/
theorem realChroot_frame (env : Env) (path : Path) (s : Host) :
    (realChroot env path s).1.mounts = s.mounts ∧ (realChroot env path s).1.dirs = s.dirs ∧
      (realChroot env path s).1.nextId = s.nextId ∧
      ∀ q : Path, (realChroot env path s).1.resolve q = s.resolve q ∨
        (realChroot env path s).1.resolve q = s.resolve path ++ q.names := by
  rcases realChroot_cases env path s with ⟨e, heq⟩ | ⟨s₁, e, h₁, heq⟩ | ⟨s₁, s₂, h₁, h₂, heq⟩ <;>
    rw [heq]
  · exact ⟨rfl, rfl, rfl, fun _ => .inl rfl⟩
  · -- `chroot` went through, `chdir` did not: the working directory is the old one
    obtain ⟨hm₁, hd₁, -, hr₁, hc₁, hn₁⟩ := chroot_eq_ok h₁
    refine ⟨hm₁, hd₁, hn₁, fun q => ?_⟩
    cases hq : q.absolute
    · exact .inl (by simp [resolve, hq, hc₁])
    · exact .inr (by simp [resolve, hq, hr₁])
  · obtain ⟨hm₁, hd₁, -, hr₁, -, hn₁⟩ := chroot_eq_ok h₁
    obtain ⟨hm₂, hd₂, -, hr₂, hc₂, hn₂⟩ := chdir_eq_ok h₂
    refine ⟨hm₂.trans hm₁, hd₂.trans hd₁, hn₂.trans hn₁, fun q => .inr ?_⟩
    cases q.absolute <;> simp [resolve, hr₂, hc₂, hr₁, Path.root]

/-- Once its unmount, if it makes one, has left `s₁`, the deferred function keeps the
mounts, root and working directory of `s₁`, and removes at most the directory `pivotDir`
names. -/
theorem cleanup_frame_of_unmounted {x : Exit} {err : Option String} {s₁ : Host}
    (h : (if x.mounted then env.call .cleanupUnmount (x.host.unmount x.pivotDir)
      else .ok x.host) = .ok s₁) :
    Frame s₁ (cleanup env x err).1 ∧ (∀ d ∈ (cleanup env x err).1.dirs, d ∈ s₁.dirs) ∧
      (∀ d ∈ s₁.dirs, d ≠ s₁.resolve x.pivotDir → d ∈ (cleanup env x err).1.dirs) ∧
      (cleanup env x err).1.mounts = s₁.mounts := by
  unfold cleanup
  dsimp only
  rw [h]
  dsimp only
  split
  · split <;> exact ⟨Frame.refl _, fun _ h => h, fun _ h _ => h, rfl⟩
  · have hrm := (Env.call_eq_ok ‹_›).2
    obtain ⟨hf, hm, -⟩ := remove_eq_ok hrm
    exact ⟨hf, (remove_dirs hrm).1, (remove_dirs hrm).2, hm⟩

/-- What the deferred function does to the host: it keeps its root and working directory,
moves no mount, detaches at most the mount at `pivotDir` with the mounts on it, and removes
at most the directory `pivotDir` names. -/
theorem cleanup_frame (env : Env) (x : Exit) (err : Option String) :
    Frame x.host (cleanup env x err).1 ∧ (∀ d ∈ (cleanup env x err).1.dirs, d ∈ x.host.dirs) ∧
      (∀ d ∈ x.host.dirs, d ≠ x.host.resolve x.pivotDir → d ∈ (cleanup env x err).1.dirs) ∧
      ∀ m ∈ (cleanup env x err).1.mounts, m ∈ x.host.mounts := by
  rcases hu : (if x.mounted then env.call .cleanupUnmount (x.host.unmount x.pivotDir)
    else .ok x.host) with e | s₁
  · -- a failed unmount leaves the host as it was
    simp only [cleanup, hu]
    exact ⟨Frame.refl _, fun _ h => h, fun _ h _ => h, fun _ h => h⟩
  have hf₁ : Frame x.host s₁ ∧ s₁.dirs = x.host.dirs ∧ ∀ m ∈ s₁.mounts, m ∈ x.host.mounts := by
    split at hu
    · obtain ⟨_, -, hm, hd, -⟩ := unmount_eq_ok (Env.call_eq_ok hu).2
      exact ⟨unmount_frame (Env.call_eq_ok hu).2, hd, fun _ h => mem_of_mem_detach (hm ▸ h)⟩
    · cases hu
      exact ⟨Frame.refl _, rfl, fun _ h => h⟩
  obtain ⟨hf, hsub, hkeep, hm⟩ := cleanup_frame_of_unmounted hu
  refine ⟨hf₁.1.trans hf, fun d h => hf₁.2.1 ▸ hsub d h,
    fun d h hne => hkeep d (hf₁.2.1 ▸ h) (by rwa [hf₁.1.resolve_eq]), fun m h => hf₁.2.2 m (hm ▸ h)⟩

/-- After the body left the old root detached, the deferred function is the `os.Remove`
of `pivotDir`. -/
theorem cleanup_of_remove {x : Exit} {err : Option String} {s' : Host}
    (hq : env.fault .cleanupRemove = none) (hx : x.mounted = false)
    (hr : x.host.remove x.pivotDir = .ok s') : (cleanup env x err).1 = s' := by
  simp [cleanup, hx, Env.call, hq, hr]

/-- Every way the body of `SwitchRoot` ends: `pivot_root` and the `os.Remove` of
`pivotDir` both fail; `pivot_root` fails, `pivotDir` is removed and `realChroot` runs;
`pivot_root` succeeds and `Chdir`, `MS_PRIVATE` or the unmount fails, with the old root
still attached and `pivotDir` read from the new root; or the full pivot. -/
theorem pivot_cases (env : Env) (path pivotDir : Path) (s : Host) :
    (∃ e, pivot env path pivotDir s = ⟨s, false, pivotDir, some e⟩) ∨
      (∃ s₁, s.remove pivotDir = .ok s₁ ∧ pivot env path pivotDir s =
        ⟨(realChroot env path s₁).1, false, pivotDir, (realChroot env path s₁).2⟩) ∨
      (∃ s₁ t e, s.pivotRoot path pivotDir = .ok s₁ ∧ t.mounts = s₁.mounts ∧
        t.dirs = s₁.dirs ∧ t.root = s₁.root ∧ t.nextId = s₁.nextId ∧
        pivot env path pivotDir s = ⟨t, true, pivotDir.joinRootBase, some e⟩) ∨
      ∃ s₁ s₂ s₃, s.pivotRoot path pivotDir = .ok s₁ ∧ s₁.chdir .root = .ok s₂ ∧
        s₂.unmount pivotDir.joinRootBase = .ok s₃ ∧
        pivot env path pivotDir s = ⟨s₃, false, pivotDir.joinRootBase, none⟩ := by
  unfold pivot
  rcases h₁ : env.call .pivotRoot (s.pivotRoot path pivotDir) with e | s₁
  · dsimp only
    rcases h₂ : env.call .removeFailedPivot (s.remove pivotDir) with e | s₂
    · exact .inl ⟨_, rfl⟩
    · exact .inr (.inl ⟨s₂, (Env.call_eq_ok h₂).2, rfl⟩)
  have hp := (Env.call_eq_ok h₁).2
  dsimp only
  rcases h₂ : env.call .chdir (s₁.chdir .root) with e | s₂
  · exact .inr (.inr (.inl ⟨s₁, s₁, _, hp, rfl, rfl, rfl, rfl, rfl⟩))
  obtain ⟨hm₂, hd₂, -, hr₂, -, hn₂⟩ := chdir_eq_ok (Env.call_eq_ok h₂).2
  dsimp only
  rcases h₃ : env.call .makePrivate (s₂.makePrivate pivotDir.joinRootBase) with e | s₃
  · exact .inr (.inr (.inl ⟨s₁, s₂, _, hp, hm₂, hd₂, hr₂, hn₂, rfl⟩))
  obtain rfl : s₂ = s₃ := (makePrivate_eq_ok (Env.call_eq_ok h₃).2).symm
  dsimp only
  rcases h₄ : env.call .unmount (s₂.unmount pivotDir.joinRootBase) with e | s₄
  · exact .inr (.inr (.inl ⟨s₁, s₂, _, hp, hm₂, hd₂, hr₂, hn₂, rfl⟩))
  · exact .inr (.inr (.inr ⟨s₁, s₂, s₄, hp, (Env.call_eq_ok h₂).2, (Env.call_eq_ok h₄).2, rfl⟩))

/-- The two ways the body returns `nil`: `pivot_root` failed, `pivotDir` was removed and
`realChroot` succeeded; or the pivot went through, the process changed to the new root and
the old root was detached. -/
theorem pivot_nil_cases {pivotDir : Path} (h : (pivot env path pivotDir s).result = none) :
    (∃ s₁, s.remove pivotDir = .ok s₁ ∧ (realChroot env path s₁).2 = none ∧
        pivot env path pivotDir s = ⟨(realChroot env path s₁).1, false, pivotDir, none⟩) ∨
      ∃ s₁ s₂ s₃, s.pivotRoot path pivotDir = .ok s₁ ∧ s₁.chdir .root = .ok s₂ ∧
        s₂.unmount pivotDir.joinRootBase = .ok s₃ ∧
        pivot env path pivotDir s = ⟨s₃, false, pivotDir.joinRootBase, none⟩ := by
  rcases pivot_cases env path pivotDir s with ⟨e, heq⟩ | ⟨s₁, hrm, heq⟩ |
    ⟨s₁, t, e, -, -, -, -, -, heq⟩ | hfull
  · simp [heq] at h
  · have hr : (realChroot env path s₁).2 = none := by simpa [heq] using h
    exact .inl ⟨s₁, hrm, hr, by rw [heq, hr]⟩
  · simp [heq] at h
  · exact .inr hfull

/-- The full pivot from a fresh `pivotDir`: the process is at `path`, the old root is
detached with the mounts on it and no other mount has moved, so that nothing is mounted at
`pivotDir` any more, and the directories and files are as they were. -/
theorem pivot_full {name : String} {hname : IsElement name} {s₁ s₂ s₃ : Host}
    (hfresh : ∀ m ∈ s.mounts, m.point ≠ s.resolve path ++ [name])
    (hp : s.pivotRoot path (path.joinPath name hname) = .ok s₁) (hc : s₁.chdir .root = .ok s₂)
    (hu : s₂.unmount (path.joinPath name hname).joinRootBase = .ok s₃) :
    s₃.root = s.resolve path ∧ s₃.cwd = s.resolve path ∧ s₃.dirs = s.dirs ∧ s₃.files = s.files ∧
      s₃.resolve (path.joinPath name hname).joinRootBase = s.resolve path ++ [name] ∧
      (∀ x ∈ s₃.mounts, ∃ x' ∈ s.mounts, x'.id = x.id ∧ x'.point = x.point) ∧
      s₃.nextId = s.nextId := by
  obtain ⟨-, -, -, -, -, hd₁, hf₁, hr₁, -⟩ := pivotRoot_eq_ok hp
  obtain ⟨hm₂, hd₂, hf₂, hr₂, hc₂, hn₂⟩ := chdir_eq_ok hc
  obtain ⟨-, -, -, hd₃, hf₃, hr₃, hc₃, -⟩ := unmount_eq_ok hu
  obtain ⟨hsub, hn⟩ := pivotRoot_unmount (by simpa using hfresh) hp hm₂ hn₂ (by simp [hr₂, hr₁]) hu
  exact ⟨hr₃.trans (hr₂.trans hr₁), by rw [hc₃, hc₂, resolve_root, hr₁],
    hd₃.trans (hd₂.trans hd₁), hf₃.trans (hf₂.trans hf₁),
    by rw [resolve_joinRootBase_joinPath, hr₃, hr₂, hr₁], hsub, hn⟩

/-- Every way the body ends, for the directories: it removes at most `pivotDir`, and
`pivotDir`, read from where it leaves the process, names that directory or, after the
`chroot` fallback, the same path read inside the new root. -/
theorem pivot_dirs {name : String} {hname : IsElement name} :
    (∀ d ∈ (pivot env path (path.joinPath name hname) s).host.dirs, d ∈ s.dirs) ∧
      (∀ d ∈ s.dirs, d ≠ s.resolve path ++ [name] →
        d ∈ (pivot env path (path.joinPath name hname) s).host.dirs) ∧
      ((pivot env path (path.joinPath name hname) s).host.resolve
          (pivot env path (path.joinPath name hname) s).pivotDir = s.resolve path ++ [name] ∨
        (pivot env path (path.joinPath name hname) s).host.resolve
          (pivot env path (path.joinPath name hname) s).pivotDir =
          s.resolve path ++ path.names ++ [name]) := by
  rcases pivot_cases env path (path.joinPath name hname) s with ⟨e, heq⟩ |
    ⟨s₁, hrm, heq⟩ | ⟨s₁, t, e, hp, -, hd, hr, -, heq⟩ | ⟨s₁, s₂, s₃, hp, hc, hu, heq⟩ <;>
    rw [heq]
  · exact ⟨fun _ h => h, fun _ h _ => h, .inl (resolve_joinPath s path name hname)⟩
  · -- `pivot_root` failed: the directory was removed and `realChroot` ran
    obtain ⟨hsub, hkeep⟩ := remove_dirs hrm
    obtain ⟨-, hd, -, hres⟩ := realChroot_frame env path s₁
    have hf := (remove_eq_ok hrm).1
    rw [resolve_joinPath] at hkeep
    refine ⟨fun d h => hsub d (hd ▸ h), fun d h hne => hd ▸ hkeep d h hne, ?_⟩
    rcases hres (path.joinPath name hname) with h | h <;> rw [h, hf.resolve_eq]
    · exact .inl (resolve_joinPath s path name hname)
    · exact .inr (by simp [Path.joinPath])
  · -- after `pivot_root` nothing is removed, and `pivotDir` is read from the new root
    obtain ⟨-, -, -, -, -, hd₁, -, hr₁, -⟩ := pivotRoot_eq_ok hp
    rw [hd, hd₁]
    exact ⟨fun _ h => h, fun _ h _ => h, .inl (by rw [resolve_joinRootBase_joinPath, hr, hr₁])⟩
  · obtain ⟨-, -, -, -, -, hd₁, -, hr₁, -⟩ := pivotRoot_eq_ok hp
    obtain ⟨-, hd₂, -, hr₂, -⟩ := chdir_eq_ok hc
    obtain ⟨-, -, -, hd₃, -, hr₃, -⟩ := unmount_eq_ok hu
    rw [hd₃, hd₂, hd₁]
    exact ⟨fun _ h => h, fun _ h _ => h,
      .inl (by rw [resolve_joinRootBase_joinPath, hr₃, hr₂, hr₁])⟩

/-- Every way `SwitchRoot` from `os.MkdirTemp` on ends: `os.MkdirTemp` fails, or it creates
`pivotDir` and the body and the deferred function run. -/
theorem switchRootPivot_cases (env : Env) (path : Path) (s : Host) :
    (∃ e, switchRootPivot env path s = (s, some e)) ∨
      ∃ s₁, s.mkdirTemp path (".pivot_root" ++ env.random) env.name_isElement =
          .ok (s₁, path.joinPath _ env.name_isElement) ∧
        switchRootPivot env path s =
          ((cleanup env (pivot env path (path.joinPath _ env.name_isElement) s₁) none).1,
            (pivot env path (path.joinPath _ env.name_isElement) s₁).result) := by
  unfold switchRootPivot
  rcases h₁ : env.call .mkdirTemp
    (s.mkdirTemp path (".pivot_root" ++ env.random) env.name_isElement) with e | ⟨s₁, pivotDir⟩
  · exact .inl ⟨_, rfl⟩
  have hm := (Env.call_eq_ok h₁).2
  obtain ⟨-, -, -, -, -, -, rfl⟩ := mkdirTemp_eq_ok hm
  exact .inr ⟨s₁, hm, rfl⟩

/-- `SwitchRoot` from `os.MkdirTemp` on returns `nil` only after creating `pivotDir` and
running a body that returns `nil`. -/
theorem switchRootPivot_nil_cases (h : (switchRootPivot env path s).2 = none) :
    ∃ s₁, s.mkdirTemp path (".pivot_root" ++ env.random) env.name_isElement =
        .ok (s₁, path.joinPath _ env.name_isElement) ∧
      (pivot env path (path.joinPath _ env.name_isElement) s₁).result = none ∧
      switchRootPivot env path s =
        ((cleanup env (pivot env path (path.joinPath _ env.name_isElement) s₁) none).1, none) := by
  rcases switchRootPivot_cases env path s with ⟨e, heq⟩ | ⟨s₁, hm, heq⟩ <;> rw [heq] at h
  · cases h
  · exact ⟨s₁, hm, h, heq.trans (Prod.ext rfl h)⟩

/-- Every way `SwitchRoot` goes: on to `os.MkdirTemp` when `path` is a mount point, to
`realChroot` when the bind mount fails, or on to `os.MkdirTemp` after the bind mount. -/
theorem switchRoot_cases (env : Env) (path : Path) (s : Host) :
    switchRoot env path s = switchRootPivot env path s ∨
      switchRoot env path s = realChroot env path s ∨
      ∃ s₁, s.bindMount path = .ok s₁ ∧ switchRoot env path s = switchRootPivot env path s₁ := by
  unfold switchRoot
  dsimp only
  split
  · exact .inl rfl
  rcases h₁ : env.call .bindMount (s.bindMount path) with e | s₁
  · exact .inr (.inl rfl)
  · exact .inr (.inr ⟨s₁, (Env.call_eq_ok h₁).2, rfl⟩)

/-- `SwitchRoot` returns `nil` either from `realChroot` on the host as it was, after the
bind mount failed, or from the pivot on the host as it was or after the bind mount. -/
theorem switchRoot_nil_cases (h : (switchRoot env path s).2 = none) :
    ((realChroot env path s).2 = none ∧ switchRoot env path s = realChroot env path s) ∨
      ∃ s₁, Frame s s₁ ∧ s₁.dirs = s.dirs ∧ (switchRootPivot env path s₁).2 = none ∧
        switchRoot env path s = switchRootPivot env path s₁ := by
  rcases switchRoot_cases env path s with heq | heq | ⟨s₁, hb, heq⟩ <;> rw [heq] at h
  · exact .inr ⟨s, Frame.refl s, rfl, h, heq⟩
  · exact .inl ⟨h, heq⟩
  · exact .inr ⟨s₁, (bindMount_eq_ok hb).1, (bindMount_eq_ok hb).2.1, h, heq⟩

end Parts

end GoArchive.Mounttree
