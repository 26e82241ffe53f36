import Mathlib.Data.List.Nodup

/-!
# `mounttree`: the host that `SwitchRoot` acts on

`SwitchRoot` changes the root of a process through the kernel's mount table: it asks
`mountinfo.Mounted`, bind-mounts, creates and removes a directory, and calls
`pivot_root`, `chdir`, `chroot`, `mount` with `MS_PRIVATE` and `umount2` with
`MNT_DETACH`. This file models the part of the host those calls read and write: the
mount table, the directories and regular files that exist, and the root and working
directory of the process.

A file or directory is named by its elements from the top of the tree as it was before the
calls. A path is clean, each of its elements a name: the model is of `SwitchRoot` on the
paths that `filepath.Clean` leaves as they are, which the kernel reads element by element.
A mount is attached at a directory or a file, on the mount that holds that place, and
records that mount as its parent. `umount2` with `MNT_DETACH` detaches a mount together
with every mount attached on it. `pivot_root` attaches the mount at the root of the process
at `put_old`, on the new root, and the mounts attached on the old root go with it; the
model keeps their names and does not follow paths into the moved file system through
`put_old` (`SwitchRoot` never looks such a path up).

Mount propagation is left to the caller, as the doc comment of `SwitchRoot` says: the model
is of a mount namespace in which no mount shares its events with another, so that a mount
or an unmount takes effect at its own place only, and the propagation `MS_PRIVATE` sets is
already the one every mount has. Privileges and symbolic links are not modelled.

A call that fails returns an `Errno` and leaves the host as it was. A call that succeeds
has the effect the kernel gives it. The preconditions modelled are the ones that decide the
runs of `SwitchRoot`: what exists at a path and whether it is a directory, which paths are
mount points, and the checks of `pivot_root` on the mounts of the new root, the current
root and `put_old`. `SwitchRoot.lean` lets the caller fail any call.

## Main definitions

* `Mounttree.Path` — a clean path, from the root or from the working directory
* `Mounttree.Host` — the mount table (topmost mount first), the directories, the files, the
  root and the working directory; mount ids are distinct, every mount point exists, the
  parent of a directory or a file is a directory, and no file is a directory
* `Host.resolve` — the place a `Path` names for the process
* `Host.bindMount`, `Host.mkdirTemp`, `Host.pivotRoot`, `Host.remove`, `Host.chdir`,
  `Host.chroot`, `Host.makePrivate`, `Host.unmount` — the system calls
* `Host.Unmoved`, `Host.Frame` — a later host that has moved no mount of an earlier one,
  and one that also has its root and working directory

## Main results

* one lemma per call that says everything a successful call changes
* `Host.Unmoved.point_eq_root` — a later host that moved no mount of `s` has the mount at
  the root of `s` where it was, or not at all
* `Host.pivotRoot_unmount` — `pivot_root` followed by detaching `put_old` detaches the old
  root and moves no other mount
* `Host.pivotRoot_root` — `pivot_root` refuses the current root as the new root
-/

namespace GoArchive.Mounttree

/-- The errors of the system calls, as the `unix.Errno` values they return. -/
inductive Errno where
  | ENOENT
  | ENOTDIR
  | EEXIST
  | EBUSY
  | EINVAL
  | ENOTEMPTY
  | EPERM
  | EACCES
  deriving DecidableEq, Repr

/-- `Errno.Error()`: the kernel's text for the error. -/
def Errno.text : Errno → String
  | .ENOENT => "no such file or directory"
  | .ENOTDIR => "not a directory"
  | .EEXIST => "file exists"
  | .EBUSY => "device or resource busy"
  | .EINVAL => "invalid argument"
  | .ENOTEMPTY => "directory not empty"
  | .EPERM => "operation not permitted"
  | .EACCES => "permission denied"

/-- A name a path element can be: not empty, not `.` or `..`, and without a separator. -/
def IsElement (n : String) : Prop := n ≠ "" ∧ n ≠ "." ∧ n ≠ ".." ∧ '/' ∉ n.toList

instance : DecidablePred IsElement := fun _ => inferInstanceAs (Decidable (_ ∧ _ ∧ _ ∧ _))

/-- A clean path as a Go string spells it: from the root or from the working directory, and
its elements, each a name. `.mk false []` is `"."`. -/
structure Path where
  absolute : Bool
  names : List String
  names_isElement : ∀ n ∈ names, IsElement n := by decide
  deriving DecidableEq

/-- The path `"/"`. -/
def Path.root : Path := .mk true []

/-- `joinPath(dir, name)` of `os.MkdirTemp`: the name `name` in `p`. -/
def Path.joinPath (p : Path) (name : String) (h : IsElement name) : Path :=
  .mk p.absolute (p.names ++ [name]) fun n hn =>
    (List.mem_append.1 hn).elim (p.names_isElement n) fun hn' => List.mem_singleton.1 hn' ▸ h

/-- `filepath.Join("/", filepath.Base(p))`: the last element of `p`, below the root. -/
def Path.joinRootBase (p : Path) : Path :=
  .mk true p.names.getLast?.toList fun n hn =>
    p.names_isElement n (List.mem_of_getLast?_eq_some (Option.mem_toList.1 hn))

/-- A mount: its id, the directory or file it is attached at, and the id of the mount it is
attached on; the mount at the top of the tree is attached on itself. -/
structure Mount where
  id : Nat
  point : List String
  parent : Nat
  deriving DecidableEq, Repr

/-- Where a copy made by a recursive bind mount with id `top` is attached, for a mount
attached on `p`: on the copy of `p` when `p` is among the mounts `below` that are copied
(their copies get the ids `top + 1`, `top + 2`, and so on), on the bind mount otherwise. -/
def copyParent (below : List Mount) (top p : Nat) : Nat :=
  match below.findIdx? (·.id = p) with
  | some i => top + 1 + i
  | none => top

/-- Copies of the mounts `ms`, attached where they are, with the ids `next`, `next + 1`,
and so on, each on `parent` of its parent. -/
def copyMounts (parent : Nat → Nat) (next : Nat) : List Mount → List Mount
  | [] => []
  | m :: ms => ⟨next, m.point, parent m.parent⟩ :: copyMounts parent (next + 1) ms

theorem map_id_copyMounts (parent : Nat → Nat) (next : Nat) (ms : List Mount) :
    (copyMounts parent next ms).map Mount.id = List.range' next ms.length := by
  induction ms generalizing next with
  | nil => rfl
  | cons m ms ih => simp [copyMounts, ih, List.range'_succ]

theorem map_point_copyMounts (parent : Nat → Nat) (next : Nat) (ms : List Mount) :
    (copyMounts parent next ms).map Mount.point = ms.map Mount.point := by
  induction ms generalizing next with
  | nil => rfl
  | cons m ms ih => simp [copyMounts, ih]

/-- What `pivot_root` does to a mount: the old root `rm` is attached at `o` on the mount
`om`, and the new root `nm` becomes the top of the tree. -/
def pivotMount (rm nm om : Nat) (o : List String) (m : Mount) : Mount :=
  if m.id = rm then ⟨m.id, o, om⟩ else if m.id = nm then ⟨m.id, m.point, nm⟩ else m

@[simp] theorem id_pivotMount (rm nm om : Nat) (o : List String) (m : Mount) :
    (pivotMount rm nm om o m).id = m.id := by
  unfold pivotMount; split_ifs <;> rfl

theorem point_pivotMount {rm nm om : Nat} {o : List String} {m : Mount} (h : m.id ≠ rm) :
    (pivotMount rm nm om o m).point = m.point := by
  unfold pivotMount; rw [if_neg h]; split_ifs <;> rfl

/-- The ids in `ids` and those of the mounts of `ms` attached on one of them, following the
parent links `fuel` times. -/
def subtreeIds (ms : List Mount) : Nat → List Nat → List Nat
  | 0, ids => ids
  | fuel + 1, ids => subtreeIds ms fuel (ids ++ (ms.filter fun m => m.parent ∈ ids).map Mount.id)

theorem mem_subtreeIds {ms : List Mount} {i : Nat} (fuel : Nat) :
    ∀ {ids : List Nat}, i ∈ ids → i ∈ subtreeIds ms fuel ids := by
  induction fuel with
  | zero => exact fun h => h
  | succ fuel ih => exact fun h => ih (List.mem_append_left _ h)

/-- The host: the mount table with the topmost mount at a place first, the directories, the
regular files, the root and working directory of the process, and the next free mount
id. -/
structure Host where
  mounts : List Mount
  dirs : List (List String)
  files : List (List String)
  root : List String
  cwd : List String
  nextId : Nat
  ids_nodup : (mounts.map Mount.id).Nodup
  ids_lt : ∀ m ∈ mounts, m.id < nextId
  points_present : ∀ m ∈ mounts, m.point ∈ dirs ∨ m.point ∈ files
  parents_dirs : ∀ d ∈ dirs, d.dropLast ∈ dirs
  files_parents : ∀ f ∈ files, f.dropLast ∈ dirs
  files_not_dirs : ∀ f ∈ files, f ∉ dirs

namespace Host

variable (s : Host)

/-- The place `p` names for the process. -/
def resolve (p : Path) : List String := (if p.absolute then s.root else s.cwd) ++ p.names

@[simp] theorem resolve_root : s.resolve .root = s.root := by simp [resolve, Path.root]

@[simp] theorem resolve_joinPath (p : Path) (name : String) (h : IsElement name) :
    s.resolve (p.joinPath name h) = s.resolve p ++ [name] := by
  simp [resolve, Path.joinPath]

@[simp] theorem resolve_joinRootBase_joinPath (p : Path) (name : String) (h : IsElement name) :
    s.resolve (p.joinPath name h).joinRootBase = s.root ++ [name] := by
  simp [resolve, Path.joinPath, Path.joinRootBase]

/-- The topmost mount attached at `d`. -/
def mountAt (d : List String) : Option Mount := s.mounts.find? (·.point = d)

/-- The mount `d` lies on: the topmost mount at the longest prefix of `d` that is a mount
point. -/
def mountOf (d : List String) : Option Mount :=
  ((List.range (d.length + 1)).reverse.map d.take).findSome? s.mountAt

/-- Some directory or file lies directly in `d`. -/
def hasEntries (d : List String) : Bool := (s.dirs ++ s.files).any fun c => c ≠ d ∧ c.dropLast = d

/-- `mountinfo.Mounted(p)`: a mount is attached at `p`. -/
def mounted (p : Path) : Bool := (s.mountAt (s.resolve p)).isSome

/-- The error of a lookup of `d` that finds nothing there to use: `ENOTDIR` when `d` or a
directory above it is a file, `ENOENT` otherwise. -/
def lookupError (d : List String) : Errno :=
  if s.files.any fun f => f <+: d then .ENOTDIR else .ENOENT

/-- The mounts without `m` and every mount attached on it: what `umount2(MNT_DETACH)` of `m`
leaves. A chain of mounts each attached on the next, none met twice, is no longer than the
mount table, so following the parent links as many times as there are mounts reaches every
mount attached on `m`. -/
def detach (m : Mount) : List Mount :=
  s.mounts.filter fun x => x.id ∉ subtreeIds s.mounts s.mounts.length [m.id]

/-! ### The system calls -/

theorem ids_nodup_bind {d : List String} (q : Nat) (parent : Nat → Nat) (below : List Mount) :
    ((⟨s.nextId, d, q⟩ :: copyMounts parent (s.nextId + 1) below ++ s.mounts).map
      Mount.id).Nodup := by
  have hids : (⟨s.nextId, d, q⟩ :: copyMounts parent (s.nextId + 1) below ++ s.mounts).map
      Mount.id = List.range' s.nextId (below.length + 1) ++ s.mounts.map Mount.id := by
    simp [map_id_copyMounts, List.range'_succ]
  rw [hids, List.nodup_append]
  refine ⟨List.nodup_range' _ _, s.ids_nodup, fun x hx hx' => ?_⟩
  obtain ⟨m, hm, rfl⟩ := List.mem_map.1 hx'
  have := s.ids_lt m hm
  rw [List.mem_range'_1] at hx
  omega

theorem ids_lt_bind {d : List String} (q : Nat) (parent : Nat → Nat) (below : List Mount) :
    ∀ m ∈ ⟨s.nextId, d, q⟩ :: copyMounts parent (s.nextId + 1) below ++ s.mounts,
      m.id < s.nextId + 1 + below.length := by
  intro m hm
  rcases List.mem_cons.1 hm with rfl | hm
  · show s.nextId < _
    omega
  rcases List.mem_append.1 hm with hm | hm
  · have := List.mem_map_of_mem Mount.id hm
    rw [map_id_copyMounts, List.mem_range'_1] at this
    omega
  · have := s.ids_lt m hm
    omega

theorem points_present_bind {d : List String} (hd : d ∈ s.dirs ∨ d ∈ s.files) (q : Nat)
    (parent : Nat → Nat) {below : List Mount} (hbelow : ∀ m ∈ below, m ∈ s.mounts) :
    ∀ m ∈ ⟨s.nextId, d, q⟩ :: copyMounts parent (s.nextId + 1) below ++ s.mounts,
      m.point ∈ s.dirs ∨ m.point ∈ s.files := by
  intro m hm
  rcases List.mem_cons.1 hm with rfl | hm
  · exact hd
  rcases List.mem_append.1 hm with hm | hm
  · have := List.mem_map_of_mem Mount.point hm
    rw [map_point_copyMounts] at this
    obtain ⟨m', hm', he⟩ := List.mem_map.1 this
    exact he ▸ s.points_present m' (hbelow m' hm')
  · exact s.points_present m hm

/-- `mount(target, target, "bind", MS_BIND|MS_REC)`: a new mount at `target`, on the mount
`target` lies on, and on it copies of the mounts below `target`. The new mounts appear at
`target` only: the caller of `SwitchRoot` is to set the propagation of the parent mount so
that nothing propagates, as its doc comment says. -/
def bindMount (target : Path) : Except Errno Host :=
  let d := s.resolve target
  if hd : d ∈ s.dirs ∨ d ∈ s.files then
    let below := s.mounts.filter fun m => d <+: m.point ∧ m.point ≠ d
    .ok { s with
      mounts := ⟨s.nextId, d, ((s.mountOf d).map Mount.id).getD s.nextId⟩ ::
        copyMounts (copyParent below s.nextId) (s.nextId + 1) below ++ s.mounts
      nextId := s.nextId + 1 + below.length
      ids_nodup := s.ids_nodup_bind _ _ below
      ids_lt := s.ids_lt_bind _ _ below
      points_present := s.points_present_bind hd _ _ fun _ hm => (List.mem_filter.1 hm).1 }
  else .error (s.lookupError d)

theorem parents_dirs_mkdir {d : List String} (hd : d ∈ s.dirs) (name : String) :
    ∀ c ∈ (d ++ [name]) :: s.dirs, c.dropLast ∈ (d ++ [name]) :: s.dirs := by
  intro c hc
  rcases List.mem_cons.1 hc with rfl | hc
  · simp [hd]
  · exact List.mem_cons_of_mem _ (s.parents_dirs c hc)

theorem files_not_dirs_mkdir {c : List String} (hc : c ∉ s.files) :
    ∀ f ∈ s.files, f ∉ c :: s.dirs := by
  intro f hf h
  rcases List.mem_cons.1 h with rfl | h
  · exact hc hf
  · exact s.files_not_dirs f hf h

/-- `os.MkdirTemp(dir, ...)` ending on the name `name`: the new directory, and its path
spelled from `dir`. `os.MkdirTemp` draws a name again while the one it drew is taken; `name`
is the last it draws, and `EEXIST` is its last try failing. -/
def mkdirTemp (dir : Path) (name : String) (hname : IsElement name) :
    Except Errno (Host × Path) :=
  let d := s.resolve dir
  if hd : d ∈ s.dirs then
    if hn : d ++ [name] ∈ s.dirs ∨ d ++ [name] ∈ s.files then .error .EEXIST
    else .ok ({ s with
      dirs := (d ++ [name]) :: s.dirs
      points_present := fun m hm => (s.points_present m hm).imp (List.mem_cons_of_mem _) id
      parents_dirs := s.parents_dirs_mkdir hd name
      files_parents := fun f hf => List.mem_cons_of_mem _ (s.files_parents f hf)
      files_not_dirs := s.files_not_dirs_mkdir (not_or.1 hn).2 }, dir.joinPath name hname)
  else .error (s.lookupError d)

theorem ids_nodup_pivot (rm nm om : Nat) (o : List String) :
    ((s.mounts.map (pivotMount rm nm om o)).map Mount.id).Nodup := by
  rw [List.map_map]
  simpa [Function.comp_def] using s.ids_nodup

theorem points_present_pivot (rm nm om : Nat) {o : List String} (ho : o ∈ s.dirs) :
    ∀ m ∈ s.mounts.map (pivotMount rm nm om o), m.point ∈ s.dirs ∨ m.point ∈ s.files := by
  intro m hm
  obtain ⟨m', hm', rfl⟩ := List.mem_map.1 hm
  by_cases hid : m'.id = rm
  · simp [pivotMount, hid, ho]
  · rw [point_pivotMount hid]
    exact s.points_present m' hm'

/-- `pivot_root(newRoot, putOld)`: the mount at the root is attached at `putOld`, on the
mount `putOld` lies on, and `newRoot` becomes the root, also of the working directory if
that was the root. -/
def pivotRoot (newRoot putOld : Path) : Except Errno Host :=
  let n := s.resolve newRoot
  let o := s.resolve putOld
  if n ∉ s.dirs then .error (s.lookupError n)
  else if ho : o ∈ s.dirs then
    match s.mountOf s.root, s.mountOf n, s.mountOf o with
    | some rm, some nm, some om =>
      if nm.id = rm.id ∨ om.id = rm.id then .error .EBUSY
      else if (s.mountAt s.root).isSome ∧ (s.mountAt n).isSome ∧ n <+: o ∧ s.root <+: n then
        .ok { s with
          mounts := s.mounts.map (pivotMount rm.id nm.id om.id o)
          root := n
          cwd := if s.cwd = s.root then n else s.cwd
          ids_nodup := s.ids_nodup_pivot rm.id nm.id om.id o
          ids_lt := fun m hm => by
            obtain ⟨m', hm', rfl⟩ := List.mem_map.1 hm
            simpa using s.ids_lt m' hm'
          points_present := s.points_present_pivot rm.id nm.id om.id ho }
      else .error .EINVAL
    | _, _, _ => .error .EINVAL
  else .error (s.lookupError o)

theorem mountAt_eq_none {d : List String} (h : (s.mountAt d).isSome = false) :
    ∀ m ∈ s.mounts, m.point ≠ d := by
  intro m hm hp
  have hnone : s.mountAt d = none := by simpa using h
  simpa [hp] using List.find?_eq_none.1 hnone m hm

theorem points_present_remove {d : List String} (hm : (s.mountAt d).isSome = false) :
    ∀ m ∈ s.mounts, m.point ∈ s.dirs.filter (· ≠ d) ∨ m.point ∈ s.files := by
  intro m hm'
  have hne := s.mountAt_eq_none hm m hm'
  rcases s.points_present m hm' with h | h
  · exact .inl (List.mem_filter.2 ⟨h, by simpa using hne⟩)
  · exact .inr h

theorem no_entry {d c : List String} (he : s.hasEntries d = false)
    (hc : c ∈ s.dirs ∨ c ∈ s.files) (hcd : c ≠ d) : c.dropLast ≠ d := by
  simp only [hasEntries, List.any_eq_false, List.mem_append, decide_eq_true_eq, not_and] at he
  exact he c hc hcd

/-- `os.Remove(p)`: `unlink` of a file, `rmdir` of a directory; refused for a mount point
and for a directory with entries. -/
def remove (p : Path) : Except Errno Host :=
  let d := s.resolve p
  if hf : d ∈ s.files then
    if hm : (s.mountAt d).isSome then .error .EBUSY
    else .ok { s with
      files := s.files.filter (· ≠ d)
      points_present := fun m hm' => (s.points_present m hm').imp id fun h =>
        List.mem_filter.2 ⟨h, by simpa using s.mountAt_eq_none (by simpa using hm) m hm'⟩
      files_parents := fun f hf' => s.files_parents f (List.mem_filter.1 hf').1
      files_not_dirs := fun f hf' => s.files_not_dirs f (List.mem_filter.1 hf').1 }
  else if d ∉ s.dirs then .error (s.lookupError d)
  else if hm : (s.mountAt d).isSome then .error .EBUSY
  else if he : s.hasEntries d then .error .ENOTEMPTY
  else .ok { s with
    dirs := s.dirs.filter (· ≠ d)
    points_present := s.points_present_remove (by simpa using hm)
    parents_dirs := fun c hc => by
      obtain ⟨hc, hcd⟩ := List.mem_filter.1 hc
      exact List.mem_filter.2 ⟨s.parents_dirs c hc,
        by simpa using s.no_entry (by simpa using he) (.inl hc) (by simpa using hcd)⟩
    files_parents := fun f hf' => List.mem_filter.2 ⟨s.files_parents f hf',
      by simpa using s.no_entry (by simpa using he) (.inr hf') fun h => hf (by rwa [← h])⟩
    files_not_dirs := fun f hf' h => s.files_not_dirs f hf' (List.mem_filter.1 h).1 }

/-- `chdir(p)`. -/
def chdir (p : Path) : Except Errno Host :=
  let d := s.resolve p
  if d ∈ s.dirs then .ok { s with cwd := d } else .error (s.lookupError d)

/-- `chroot(p)`. -/
def chroot (p : Path) : Except Errno Host :=
  let d := s.resolve p
  if d ∈ s.dirs then .ok { s with root := d } else .error (s.lookupError d)

/-- `mount("", p, "", MS_PRIVATE|MS_REC, "")`: refused unless `p` is a mount point. In a
namespace where no mount propagates, as the caller of `SwitchRoot` is to arrange, the
propagation it sets is the one the mounts have already. -/
def makePrivate (p : Path) : Except Errno Host :=
  let d := s.resolve p
  if d ∉ s.dirs ∧ d ∉ s.files then .error (s.lookupError d)
  else if (s.mountAt d).isSome then .ok s
  else .error .EINVAL

/-- `umount2(p, MNT_DETACH)`: the topmost mount at `p` is detached, together with every
mount attached on it. -/
def unmount (p : Path) : Except Errno Host :=
  let d := s.resolve p
  if d ∉ s.dirs ∧ d ∉ s.files then .error (s.lookupError d)
  else
    match s.mountAt d with
    | none => .error .EINVAL
    | some m => .ok { s with
        mounts := s.detach m
        ids_nodup := s.ids_nodup.sublist ((List.filter_sublist _).map _)
        ids_lt := fun m' hm' => s.ids_lt m' (List.mem_filter.1 hm').1
        points_present := fun m' hm' => s.points_present m' (List.mem_filter.1 hm').1 }

/-! ### What a successful call changes -/

/-- `s'` moved no mount of `s`: every mount of `s'` with an id that `s` had given out is
attached where that mount of `s` was, and `s'` gives out no such id again. Mounts may have
been added or detached. -/
structure Unmoved (s s' : Host) : Prop where
  nextId_le : s.nextId ≤ s'.nextId
  point_eq : ∀ m ∈ s'.mounts, m.id < s.nextId →
    ∃ m' ∈ s.mounts, m'.id = m.id ∧ m'.point = m.point

/-- `s'` has the root and working directory of `s` and moved none of its mounts. -/
structure Frame (s s' : Host) extends Unmoved s s' : Prop where
  root_eq : s'.root = s.root
  cwd_eq : s'.cwd = s.cwd

variable {s} {s' s'' : Host} {p : Path}

theorem Unmoved.trans (h : Unmoved s s') (h' : Unmoved s' s'') : Unmoved s s'' := by
  refine ⟨h.nextId_le.trans h'.nextId_le, fun m hm hid => ?_⟩
  obtain ⟨m', hm', hid', hpt'⟩ := h'.point_eq m hm (lt_of_lt_of_le hid h.nextId_le)
  obtain ⟨m'', hm'', hid'', hpt''⟩ := h.point_eq m' hm' (hid' ▸ hid)
  exact ⟨m'', hm'', hid''.trans hid', hpt''.trans hpt'⟩

theorem Unmoved.of_subset (hm : ∀ m ∈ s'.mounts, m ∈ s.mounts) (hn : s.nextId ≤ s'.nextId) :
    Unmoved s s' :=
  ⟨hn, fun m h _ => ⟨m, hm m h, rfl, rfl⟩⟩

theorem Frame.refl (s : Host) : Frame s s := ⟨.of_subset (fun _ h => h) le_rfl, rfl, rfl⟩

theorem Frame.trans (h : Frame s s') (h' : Frame s' s'') : Frame s s'' :=
  ⟨h.toUnmoved.trans h'.toUnmoved, h'.root_eq.trans h.root_eq, h'.cwd_eq.trans h.cwd_eq⟩

theorem Frame.of_eq (hm : s'.mounts = s.mounts) (hr : s'.root = s.root) (hc : s'.cwd = s.cwd)
    (hn : s'.nextId = s.nextId) : Frame s s' :=
  ⟨.of_subset (fun _ h => hm ▸ h) hn.ge, hr, hc⟩

theorem Frame.resolve_eq (h : Frame s s') (p : Path) : s'.resolve p = s.resolve p := by
  simp [resolve, h.root_eq, h.cwd_eq]

theorem mountAt_eq_some {d : List String} {m : Mount} (h : s.mountAt d = some m) :
    m ∈ s.mounts ∧ m.point = d := by
  unfold mountAt at h
  exact ⟨List.mem_of_find?_eq_some h, by simpa using List.find?_some h⟩

/-- Two mounts with one id are one mount. -/
theorem eq_of_id_eq {m m' : Mount} (hm : m ∈ s.mounts) (hm' : m' ∈ s.mounts)
    (h : m.id = m'.id) : m = m' :=
  List.inj_on_of_nodup_map s.ids_nodup hm hm' h

/-- A mount of a later host that moved no mount of `s`, with the id of the mount at the root
of `s`, is attached at the root of `s`. -/
theorem Unmoved.point_eq_root (h : Unmoved s s') {m₀ m : Mount}
    (h₀ : s.mountAt s.root = some m₀) (hm : m ∈ s'.mounts) (hid : m.id = m₀.id) :
    m.point = s.root := by
  obtain ⟨hm₀, hp⟩ := mountAt_eq_some h₀
  obtain ⟨m', hm', hid', hpt⟩ := h.point_eq m hm (hid ▸ s.ids_lt m₀ hm₀)
  rw [← hpt, eq_of_id_eq hm' hm₀ (hid'.trans hid), hp]

theorem bindMount_eq_ok (h : s.bindMount p = .ok s') :
    Frame s s' ∧ s'.dirs = s.dirs ∧ s'.files = s.files ∧ ∀ m ∈ s.mounts, m ∈ s'.mounts := by
  unfold bindMount at h
  dsimp only at h
  split at h
  · cases h
    refine ⟨⟨⟨by dsimp only; omega, fun m hm hid => ⟨m, ?_, rfl, rfl⟩⟩, rfl, rfl⟩, rfl, rfl,
      fun m hm => List.mem_cons_of_mem _ (List.mem_append_right _ hm)⟩
    rcases List.mem_cons.1 hm with rfl | hm
    · simp at hid
    rcases List.mem_append.1 hm with hm | hm
    · have := List.mem_map_of_mem Mount.id hm
      rw [map_id_copyMounts, List.mem_range'_1] at this
      omega
    · exact hm
  · cases h

theorem mkdirTemp_eq_ok {name : String} {hname : IsElement name} {q : Path}
    (h : s.mkdirTemp p name hname = .ok (s', q)) :
    Frame s s' ∧ s'.mounts = s.mounts ∧ s.resolve p ++ [name] ∉ s.dirs ∧
      s.resolve p ++ [name] ∉ s.files ∧ s'.dirs = (s.resolve p ++ [name]) :: s.dirs ∧
      s'.files = s.files ∧ q = p.joinPath name hname := by
  unfold mkdirTemp at h
  dsimp only at h
  split at h
  · split at h
    · cases h
    · cases h
      rename_i hn
      exact ⟨Frame.of_eq rfl rfl rfl rfl, rfl, (not_or.1 hn).1, (not_or.1 hn).2, rfl, rfl, rfl⟩
  · cases h

theorem remove_eq_ok (h : s.remove p = .ok s') :
    Frame s s' ∧ s'.mounts = s.mounts ∧ (s.mountAt (s.resolve p)).isSome = false ∧
      (s.resolve p ∈ s.files ∧ s'.dirs = s.dirs ∨
        s.resolve p ∉ s.files ∧ s.hasEntries (s.resolve p) = false ∧
          s'.dirs = s.dirs.filter (· ≠ s.resolve p)) := by
  unfold remove at h
  dsimp only at h
  split_ifs at h with hf hm _ hm he <;> cases h
  · exact ⟨Frame.of_eq rfl rfl rfl rfl, rfl, by simpa using hm, .inl ⟨hf, rfl⟩⟩
  · exact ⟨Frame.of_eq rfl rfl rfl rfl, rfl, by simpa using hm, .inr ⟨hf, by simpa using he, rfl⟩⟩

/-- `os.Remove` removes at most the directory `p` names. -/
theorem remove_dirs (h : s.remove p = .ok s') :
    (∀ d ∈ s'.dirs, d ∈ s.dirs) ∧ ∀ d ∈ s.dirs, d ≠ s.resolve p → d ∈ s'.dirs := by
  rcases (remove_eq_ok h).2.2.2 with ⟨-, hd⟩ | ⟨-, -, hd⟩ <;> rw [hd]
  · exact ⟨fun _ h => h, fun _ h _ => h⟩
  · exact ⟨fun _ h => (List.mem_filter.1 h).1, fun _ h hne => List.mem_filter.2 ⟨h, by simpa⟩⟩

/-- `os.Remove` of a directory is its `rmdir`. -/
theorem remove_dir_eq_ok (h : s.remove p = .ok s') (hd : s.resolve p ∈ s.dirs) :
    s'.dirs = s.dirs.filter (· ≠ s.resolve p) := by
  rcases (remove_eq_ok h).2.2.2 with ⟨hf, -⟩ | ⟨-, -, hd'⟩
  · exact absurd hd (s.files_not_dirs _ hf)
  · exact hd'

theorem chdir_eq_ok (h : s.chdir p = .ok s') :
    s'.mounts = s.mounts ∧ s'.dirs = s.dirs ∧ s'.files = s.files ∧ s'.root = s.root ∧
      s'.cwd = s.resolve p ∧ s'.nextId = s.nextId := by
  unfold chdir at h
  dsimp only at h
  split at h
  · cases h; exact ⟨rfl, rfl, rfl, rfl, rfl, rfl⟩
  · cases h

theorem chroot_eq_ok (h : s.chroot p = .ok s') :
    s'.mounts = s.mounts ∧ s'.dirs = s.dirs ∧ s'.files = s.files ∧ s'.root = s.resolve p ∧
      s'.cwd = s.cwd ∧ s'.nextId = s.nextId := by
  unfold chroot at h
  dsimp only at h
  split at h
  · cases h; exact ⟨rfl, rfl, rfl, rfl, rfl, rfl⟩
  · cases h

theorem makePrivate_eq_ok (h : s.makePrivate p = .ok s') : s' = s := by
  unfold makePrivate at h
  dsimp only at h
  split_ifs at h
  cases h
  rfl

theorem unmount_eq_ok (h : s.unmount p = .ok s') :
    ∃ m, s.mountAt (s.resolve p) = some m ∧ s'.mounts = s.detach m ∧ s'.dirs = s.dirs ∧
      s'.files = s.files ∧ s'.root = s.root ∧ s'.cwd = s.cwd ∧ s'.nextId = s.nextId := by
  unfold unmount at h
  dsimp only at h
  split at h
  · cases h
  · split at h
    · cases h
    · cases h
      exact ⟨_, ‹_›, rfl, rfl, rfl, rfl, rfl, rfl⟩

theorem mem_of_mem_detach {m x : Mount} (h : x ∈ s.detach m) : x ∈ s.mounts :=
  (List.mem_filter.1 h).1

/-- The mount detached is gone. -/
theorem id_ne_of_mem_detach {m x : Mount} (h : x ∈ s.detach m) : x.id ≠ m.id := by
  intro hid
  have := (List.mem_filter.1 h).2
  simp only [decide_eq_true_eq] at this
  exact this (hid ▸ mem_subtreeIds _ (List.mem_singleton_self _))

theorem unmount_frame (h : s.unmount p = .ok s') : Frame s s' := by
  obtain ⟨m, -, hm, -, -, hr, hc, hn⟩ := unmount_eq_ok h
  exact ⟨.of_subset (fun _ h' => mem_of_mem_detach (hm ▸ h')) hn.ge, hr, hc⟩

theorem mountOf_of_mountAt {d : List String} {m : Mount} (h : s.mountAt d = some m) :
    s.mountOf d = some m := by
  simp [mountOf, List.range_succ, h]

theorem pivotRoot_eq_ok {newRoot putOld : Path} (h : s.pivotRoot newRoot putOld = .ok s') :
    ∃ rm nm om : Nat, (∃ m, s.mountAt s.root = some m ∧ m.id = rm) ∧
      s'.mounts = s.mounts.map (pivotMount rm nm om (s.resolve putOld)) ∧
      s'.dirs = s.dirs ∧ s'.files = s.files ∧ s'.root = s.resolve newRoot ∧ s'.nextId = s.nextId ∧
      s'.cwd = (if s.cwd = s.root then s.resolve newRoot else s.cwd) := by
  unfold pivotRoot at h
  dsimp only at h
  split at h
  · cases h
  split at h
  · split at h
    · rename_i rm nm om hr _ _
      split at h
      · cases h
      · split at h
        · rename_i hc
          obtain ⟨rm', hrm'⟩ := Option.isSome_iff_exists.1 hc.1
          rw [mountOf_of_mountAt hrm', Option.some.injEq] at hr
          cases h
          exact ⟨rm.id, nm.id, om.id, ⟨rm', hrm', by rw [hr]⟩, rfl, rfl, rfl, rfl, rfl, rfl⟩
        · cases h
    · cases h
  · cases h

/-- `pivot_root` refuses the current root as the new root: the mount it would move is the
one the new root lies on. -/
theorem pivotRoot_root (s : Host) (putOld : Path) : ∃ e, s.pivotRoot .root putOld = .error e := by
  unfold pivotRoot
  simp only [resolve_root]
  split
  · exact ⟨_, rfl⟩
  split
  · split
    · rename_i rm nm om hr hn' _
      rw [hr, Option.some.injEq] at hn'
      rw [if_pos (.inl (congrArg Mount.id hn'.symm))]
      exact ⟨_, rfl⟩
    · exact ⟨_, rfl⟩
  · exact ⟨_, rfl⟩

theorem hasEntries_congr {s' : Host} (hd : s'.dirs = s.dirs) (hf : s'.files = s.files)
    (d : List String) : s'.hasEntries d = s.hasEntries d := by
  simp [hasEntries, hd, hf]

/-- The directory `os.MkdirTemp` creates is empty. -/
theorem hasEntries_mkdirTemp {name : String} {hname : IsElement name} {q : Path}
    (h : s.mkdirTemp p name hname = .ok (s', q)) :
    s'.hasEntries (s.resolve p ++ [name]) = false := by
  obtain ⟨-, -, hnew, -, hd, hf, -⟩ := mkdirTemp_eq_ok h
  simp only [hasEntries, hd, hf, List.any_eq_false, List.mem_append, List.mem_cons,
    decide_eq_true_eq, not_and]
  rintro c ((rfl | hc) | hc) hne hparent
  · exact hne rfl
  · exact hnew (hparent ▸ s.parents_dirs c hc)
  · exact hnew (hparent ▸ s.files_parents c hc)

/-- Nothing is mounted on the directory `os.MkdirTemp` creates. -/
theorem mounts_fresh_mkdirTemp {name : String} {hname : IsElement name} {q : Path}
    (h : s.mkdirTemp p name hname = .ok (s', q)) :
    ∀ m ∈ s'.mounts, m.point ≠ s'.resolve p ++ [name] := by
  obtain ⟨hf, hms, hnew, hnewf, -⟩ := mkdirTemp_eq_ok h
  intro m hm hp
  rw [hf.resolve_eq] at hp
  rcases s.points_present m (hms ▸ hm) with h' | h'
  · exact hnew (hp ▸ h')
  · exact hnewf (hp ▸ h')

/-- `rmdir` succeeds on an existing empty directory that is no mount point. -/
theorem remove_ok (hd : s.resolve p ∈ s.dirs) (hm : s.mountAt (s.resolve p) = none)
    (he : s.hasEntries (s.resolve p) = false) :
    ∃ s', s.remove p = .ok s' ∧ s'.dirs = s.dirs.filter (· ≠ s.resolve p) := by
  unfold remove
  dsimp only
  rw [dif_neg fun hf => s.files_not_dirs _ hf hd, if_neg (not_not.2 hd), dif_neg (by simp [hm]),
    dif_neg (by simp [he])]
  exact ⟨_, rfl, rfl⟩

/-- `pivot_root` to a fresh `put_old`, then `umount2(put_old, MNT_DETACH)` from the new
root: the mount that was at the root is detached, together with the mounts attached on it,
every other mount stays where it was, and no id is given out. -/
theorem pivotRoot_unmount {s₃ t s₆ : Host} {newRoot putOld : Path}
    (hfresh : ∀ m ∈ s.mounts, m.point ≠ s.resolve putOld)
    (hpivot : s.pivotRoot newRoot putOld = .ok s₃) (hm : t.mounts = s₃.mounts)
    (hn : t.nextId = s₃.nextId) (hp : t.resolve p = s.resolve putOld)
    (hu : t.unmount p = .ok s₆) :
    (∀ x ∈ s₆.mounts, ∃ x' ∈ s.mounts, x'.id = x.id ∧ x'.point = x.point) ∧
      s₆.nextId = s.nextId := by
  obtain ⟨rm, nm, om, -, hm₃, -, -, -, hn₃, -⟩ := pivotRoot_eq_ok hpivot
  obtain ⟨m, hat, hm₆, -, -, -, -, hn₆⟩ := unmount_eq_ok hu
  obtain ⟨hmem, hpt⟩ := mountAt_eq_some hat
  rw [hm, hm₃] at hmem
  rw [hp] at hpt
  -- the mount detached is the one `pivot_root` moved: nothing else is at `put_old`
  obtain ⟨m', hm', rfl⟩ := List.mem_map.1 hmem
  have hid : m'.id = rm := by
    by_contra hne
    rw [point_pivotMount hne] at hpt
    exact hfresh m' hm' hpt
  refine ⟨fun x hx => ?_, by rw [hn₆, hn, hn₃]⟩
  have hne := id_ne_of_mem_detach (hm₆ ▸ hx)
  have hmem' := mem_of_mem_detach (hm₆ ▸ hx)
  rw [hm, hm₃] at hmem'
  obtain ⟨x', hx', rfl⟩ := List.mem_map.1 hmem'
  simp only [id_pivotMount] at hne
  exact ⟨x', hx', by simp, (point_pivotMount (hid ▸ hne)).symm⟩

/-! ### When a call succeeds -/

theorem chdir_ok (hd : s.resolve p ∈ s.dirs) : ∃ s', s.chdir p = .ok s' :=
  ⟨_, if_pos hd⟩

theorem chroot_ok (hd : s.resolve p ∈ s.dirs) : ∃ s', s.chroot p = .ok s' :=
  ⟨_, if_pos hd⟩

/-- `os.MkdirTemp` succeeds in an existing directory when the name it ends on is free. -/
theorem mkdirTemp_ok {name : String} (hname : IsElement name) (hd : s.resolve p ∈ s.dirs)
    (hfree : s.resolve p ++ [name] ∉ s.dirs) (hfree' : s.resolve p ++ [name] ∉ s.files) :
    ∃ s', s.mkdirTemp p name hname = .ok (s', p.joinPath name hname) := by
  unfold mkdirTemp
  dsimp only
  rw [dif_pos hd, dif_neg (not_or.2 ⟨hfree, hfree'⟩)]
  exact ⟨_, rfl⟩

end Host

end GoArchive.Mounttree
