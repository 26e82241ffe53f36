import GoArchive.Mounttree.SwitchRoot

/-!
# Runs of `SwitchRoot`

What a whole run of `SwitchRoot` does to the host, for every host, every path and every
pattern of failing system calls: first the runs that return `nil`, then `SwitchRoot("/")`,
then every run, errors included, for the directories. The results are assembled from what
each part of `SwitchRoot` can do (`GoArchive.Mounttree.SwitchRoot`). Two small hosts show
the runs that the results are about.

## Main definitions

* `Mounttree.sampleHost`, `Mounttree.nestedHost` — two small hosts
* `Mounttree.quietEnv`, `Mounttree.failingAt` — an environment that makes no call fail,
  and one that makes one call site fail

## Main results

* `switchRoot_nil` — when `SwitchRoot` returns `nil`, the process has `path` as root and
  working directory, and no mount of the host has moved: the old root is where it was, or
  detached after a full pivot
* `switchRoot_root_quiet` — when no call is made to fail, `SwitchRoot("/")` returns `nil`
  through the `chroot` fallback with every mount still there
* `switchRoot_isolates` — both together: the old root is attached at no directory the new
  root reaches unless `path` names the current root or a directory above it
* `switchRoot_removes_pivotDir` — unless the deferred `os.Remove` fails, a `nil` result
  leaves no `.pivot_root*` directory behind
* `switchRoot_keeps_dirs` — over every run, no directory is left behind but `.pivot_root*`,
  and none that existed is removed but the one `pivotDir` names inside the new root after
  the `chroot` fallback
* `switchRoot_cleanup_remove_fails` — the error of the deferred `os.Remove` is lost
-/

namespace GoArchive.Mounttree

open Host

/-! ## The runs that return `nil` -/

section Runs

variable {env : Env} {path : Path} {s : Host}

/-- The body returns `nil` only with the process at `path`, and then it has moved no mount
of the host: after a full pivot the old root is detached, with the mounts attached on it. -/
theorem pivot_nil {name : String} {hname : IsElement name}
    (hfresh : ∀ m ∈ s.mounts, m.point ≠ s.resolve path ++ [name])
    (h : (pivot env path (path.joinPath name hname) s).result = none) :
    (pivot env path (path.joinPath name hname) s).host.root = s.resolve path ∧
      (pivot env path (path.joinPath name hname) s).host.cwd = s.resolve path ∧
      Unmoved s (pivot env path (path.joinPath name hname) s).host := by
  rcases pivot_nil_cases h with ⟨s₁, hrm, hr, heq⟩ | ⟨s₁, s₂, s₃, hp, hc, hu, heq⟩ <;> rw [heq]
  · -- `pivot_root` failed: the directory was removed and `realChroot` ran
    have hf := (remove_eq_ok hrm).1
    obtain ⟨hr, hc, hm, -, hn⟩ := realChroot_nil hr
    exact ⟨hr.trans (hf.resolve_eq path), hc.trans (hf.resolve_eq path),
      hf.toUnmoved.trans (.of_subset (fun _ h => hm ▸ h) hn.ge)⟩
  · -- the full pivot: the old root is detached
    obtain ⟨hr, hc, -, -, -, hsub, hn⟩ := pivot_full hfresh hp hc hu
    exact ⟨hr, hc, ⟨hn.ge, fun m hm _ => hsub m hm⟩⟩

theorem switchRootPivot_nil (h : (switchRootPivot env path s).2 = none) :
    (switchRootPivot env path s).1.root = s.resolve path ∧
      (switchRootPivot env path s).1.cwd = s.resolve path ∧
      Unmoved s (switchRootPivot env path s).1 := by
  obtain ⟨s₁, hm, hp, heq⟩ := switchRootPivot_nil_cases h
  have hf := (mkdirTemp_eq_ok hm).1
  rw [heq]
  obtain ⟨hr, hc, hk⟩ := pivot_nil (mounts_fresh_mkdirTemp hm) hp
  have hc' := (cleanup_frame env (pivot env path (path.joinPath _ env.name_isElement) s₁) none).1
  rw [hf.resolve_eq] at hr hc
  exact ⟨hc'.root_eq.trans hr, hc'.cwd_eq.trans hc, hf.toUnmoved.trans (hk.trans hc'.toUnmoved)⟩

/-- `SwitchRoot` returns `nil` only with the process at `path`, root and working directory,
and then it has moved no mount of the host: the old root is where it was, or detached
after a full pivot. -/
theorem switchRoot_nil (h : (switchRoot env path s).2 = none) :
    (switchRoot env path s).1.root = s.resolve path ∧
      (switchRoot env path s).1.cwd = s.resolve path ∧ Unmoved s (switchRoot env path s).1 := by
  rcases switchRoot_nil_cases h with ⟨hr, heq⟩ | ⟨s₁, hf, -, hp, heq⟩ <;> rw [heq]
  · obtain ⟨hr, hc, hm, -, hn⟩ := realChroot_nil hr
    exact ⟨hr, hc, .of_subset (fun _ h => hm ▸ h) hn.ge⟩
  · obtain ⟨hr, hc, hk⟩ := switchRootPivot_nil hp
    rw [hf.resolve_eq] at hr hc
    exact ⟨hr, hc, hf.toUnmoved.trans hk⟩

end Runs

/-! ## `SwitchRoot("/")` -/

section Root

variable {env : Env} {s : Host}

/-- When its calls do not fail, `realChroot` returns `nil` on a path that names a
directory. -/
theorem realChroot_quiet {path : Path} (hq : ∀ site, env.fault site = none)
    (hd : s.resolve path ∈ s.dirs) : (realChroot env path s).2 = none := by
  obtain ⟨s₁, h₁⟩ := chroot_ok hd
  obtain ⟨-, hd₁, -, hr₁, -, -⟩ := chroot_eq_ok h₁
  obtain ⟨s₂, h₂⟩ := @chdir_ok s₁ .root (by rw [resolve_root, hr₁, hd₁]; exact hd)
  simp only [realChroot, Env.call_of_fault (hq _), h₁, h₂]

/-- When no call fails, the body refuses `pivot_root` to the current root, removes the empty
directory `os.MkdirTemp` made there, and returns `nil` from `chroot`, with the root and the
mounts as they were before `os.MkdirTemp`. -/
theorem pivot_root_quiet {name : String} {hname : IsElement name} {s₀ : Host}
    (hq : ∀ site, env.fault site = none) (hroot : s₀.root ∈ s₀.dirs)
    (hm : s₀.mkdirTemp .root name hname = .ok (s, Path.root.joinPath name hname)) :
    (pivot env .root (Path.root.joinPath name hname) s).result = none ∧
      (pivot env .root (Path.root.joinPath name hname) s).mounted = false ∧
      (pivot env .root (Path.root.joinPath name hname) s).host.root = s₀.root ∧
      (pivot env .root (Path.root.joinPath name hname) s).host.mounts = s₀.mounts := by
  obtain ⟨hf, hms, -, -, hd, -, -⟩ := mkdirTemp_eq_ok hm
  have hres : s.resolve (Path.root.joinPath name hname) = s₀.root ++ [name] := by
    simp [hf.root_eq]
  obtain ⟨e, hpe⟩ := pivotRoot_root s (Path.root.joinPath name hname)
  -- `pivot_root` refused: the fresh directory is empty and no mount point, so it goes
  have hnone : s.mountAt (s.resolve (Path.root.joinPath name hname)) = none :=
    List.find?_eq_none.2 fun m hm' hp =>
      mounts_fresh_mkdirTemp hm m hm' (by simpa [hf.root_eq, hres] using hp)
  obtain ⟨s₂, hrm, hd₂⟩ := remove_ok (by simp [hres, hd]) hnone
    (by simpa [hres, hf.root_eq] using hasEntries_mkdirTemp hm)
  obtain ⟨hf₂, hm₂, -⟩ := remove_eq_ok hrm
  have hroot₂ : s₂.resolve .root ∈ s₂.dirs := by
    rw [resolve_root, hf₂.root_eq, hf.root_eq, hd₂, hres, hd]
    simp [hroot]
  simp only [pivot, Env.call_of_fault (hq _), hpe, hrm]
  have hnil := realChroot_quiet hq hroot₂
  obtain ⟨hr, -, hm₃, -, -⟩ := realChroot_nil hnil
  refine ⟨hnil, trivial, ?_, ?_⟩
  · rw [hr, resolve_root, hf₂.root_eq, hf.root_eq]
  · rw [hm₃, hm₂, hms]

/-- `SwitchRoot` from `os.MkdirTemp` on, at `"/"`, when no call fails: `nil`, with the root
and the mounts as they were. -/
theorem switchRootPivot_root_quiet (hq : ∀ site, env.fault site = none)
    (hroot : s.root ∈ s.dirs) (hfree : s.root ++ [".pivot_root" ++ env.random] ∉ s.dirs)
    (hfree' : s.root ++ [".pivot_root" ++ env.random] ∉ s.files) :
    (switchRootPivot env .root s).2 = none ∧ (switchRootPivot env .root s).1.root = s.root ∧
      (switchRootPivot env .root s).1.mounts = s.mounts := by
  obtain ⟨s₁, hm⟩ := mkdirTemp_ok env.name_isElement (show s.resolve .root ∈ s.dirs by simpa)
    (by simpa using hfree) (by simpa using hfree')
  obtain ⟨hnil, hmo, hr, hms⟩ := pivot_root_quiet hq hroot hm
  have hc := @cleanup_frame_of_unmounted env
    (pivot env .root (Path.root.joinPath _ env.name_isElement) s₁) none _
    (by rw [if_neg (by simp [hmo])])
  simp only [switchRootPivot, Env.call_of_fault (hq _), hm]
  exact ⟨hnil, hc.1.root_eq.trans hr, hc.2.2.2.trans hms⟩

/-- `SwitchRoot("/")`, when no call is made to fail and the name `os.MkdirTemp` ends on is
free at the root: `pivot_root` refuses the current root, and the call returns `nil` through
the `chroot` fallback, with the root where it was and every mount still there. -/
theorem switchRoot_root_quiet (hq : ∀ site, env.fault site = none) (hroot : s.root ∈ s.dirs)
    (hfree : s.root ++ [".pivot_root" ++ env.random] ∉ s.dirs)
    (hfree' : s.root ++ [".pivot_root" ++ env.random] ∉ s.files) :
    (switchRoot env .root s).2 = none ∧ (switchRoot env .root s).1.root = s.root ∧
      ∀ m ∈ s.mounts, m ∈ (switchRoot env .root s).1.mounts := by
  rcases switchRoot_cases env .root s with heq | heq | ⟨s₁, hb, heq⟩ <;> rw [heq]
  · obtain ⟨hnil, hr, hm⟩ := switchRootPivot_root_quiet hq hroot hfree hfree'
    exact ⟨hnil, hr, fun _ h => hm ▸ h⟩
  · have hnil := realChroot_quiet hq (show s.resolve .root ∈ s.dirs by simpa)
    exact ⟨hnil, by simpa using (realChroot_nil hnil).1,
      fun _ h => (realChroot_frame env .root s).1 ▸ h⟩
  · -- the root was no mount point: the bind mount puts one there first
    obtain ⟨hf, hd, hfs, hsub⟩ := bindMount_eq_ok hb
    rw [← hf.root_eq, ← hd] at hroot hfree
    rw [← hf.root_eq, ← hfs] at hfree'
    obtain ⟨hnil, hr, hm⟩ := switchRootPivot_root_quiet hq hroot hfree hfree'
    exact ⟨hnil, hr.trans hf.root_eq, fun m h => hm ▸ hsub m h⟩

end Root

/-! ## Small hosts and environments -/

/-- A host with one mount, at the top, and the directory `/a`. -/
def sampleHost : Host where
  mounts := [⟨0, [], 0⟩]
  dirs := [[], ["a"]]
  files := []
  root := []
  cwd := []
  nextId := 1
  ids_nodup := by decide
  ids_lt := by decide
  points_present := by decide
  parents_dirs := by decide
  files_parents := by decide
  files_not_dirs := by decide

/-- An environment in which no call is made to fail. -/
def quietEnv : Env := .mk (fun _ => none) ""

/-- An environment in which only the call at `site` fails, with `e`. -/
def failingAt (site : Site) (e : Errno) : Env :=
  .mk (fun s => if s = site then some e else none) ""

/-- A host whose root is no mount point, as an initramfs root is, so that `pivot_root`
refuses it, and in which `/a/a/.pivot_root` exists. -/
def nestedHost : Host where
  mounts := []
  dirs := [[], ["a"], ["a", "a"], ["a", "a", ".pivot_root"]]
  files := []
  root := []
  cwd := []
  nextId := 0
  ids_nodup := by decide
  ids_lt := by decide
  points_present := by decide
  parents_dirs := by decide
  files_parents := by decide
  files_not_dirs := by decide

/-! ## The old root after `SwitchRoot` -/

/-- When `SwitchRoot` returns `nil`, the process has `path` as root and working directory,
and unless `path` names the current root or a directory above it, the mount that was at the
old root is attached at no directory the new root reaches. `SwitchRoot("/")`, when no call
is made to fail, returns `nil` through the `chroot` fallback, and the old root stays
mounted at the root. -/
theorem switchRoot_isolates :
    (∀ env path s, (switchRoot env path s).2 = none →
      (switchRoot env path s).1.root = s.resolve path ∧
        (switchRoot env path s).1.cwd = (switchRoot env path s).1.root ∧
        (¬s.resolve path <+: s.root → ∀ m₀, s.mountAt s.root = some m₀ →
          ∀ m ∈ (switchRoot env path s).1.mounts, m.id = m₀.id →
            ¬(switchRoot env path s).1.root <+: m.point)) ∧
      ∀ env s, (∀ site, env.fault site = none) → s.root ∈ s.dirs →
        s.root ++ [".pivot_root" ++ env.random] ∉ s.dirs →
        s.root ++ [".pivot_root" ++ env.random] ∉ s.files →
        (switchRoot env .root s).2 = none ∧ (switchRoot env .root s).1.root = s.root ∧
          ∀ m ∈ s.mounts, m ∈ (switchRoot env .root s).1.mounts := by
  refine ⟨fun env path s h => ?_, fun _ _ => switchRoot_root_quiet⟩
  obtain ⟨hr, hc, hk⟩ := switchRoot_nil h
  refine ⟨hr, hc.trans hr.symm, fun hpath m₀ h₀ m hm hid => ?_⟩
  rw [hk.point_eq_root h₀ hm hid, hr]
  exact hpath

/-- `SwitchRoot("/a")` on `sampleHost`: `/a` is the root, and the mount that was at `/` is
attached nowhere below it; `SwitchRoot("/")` keeps that mount. -/
theorem switchRoot_isolates_a :
    (switchRoot quietEnv (.mk true ["a"]) sampleHost).1.root = ["a"] ∧
      (∀ m ∈ (switchRoot quietEnv (.mk true ["a"]) sampleHost).1.mounts, m.id = 0 →
        ¬["a"] <+: m.point) ∧
      (⟨0, [], 0⟩ : Mount) ∈ (switchRoot quietEnv .root sampleHost).1.mounts := by
  obtain ⟨hr, -, hiso⟩ := switchRoot_isolates.1 quietEnv (.mk true ["a"]) sampleHost (by decide)
  have hr' : (switchRoot quietEnv (.mk true ["a"]) sampleHost).1.root = ["a"] := hr
  refine ⟨hr', fun m hm hid => hr' ▸ hiso (by decide) ⟨0, [], 0⟩ rfl m hm hid,
    (switchRoot_isolates.2 quietEnv sampleHost (fun _ => rfl) (by decide) (by decide)
      (by decide)).2.2 _ (by decide)⟩

/-- `SwitchRoot("/")` returns `nil` through the `chroot` fallback (`pivot_root` refuses the
current root), and the old root is still mounted at the new root. -/
theorem switchRoot_slash :
    (switchRoot quietEnv .root sampleHost).2 = none ∧
      (switchRoot quietEnv .root sampleHost).1.root = [] ∧
      sampleHost.mountAt sampleHost.root = some ⟨0, [], 0⟩ ∧
      (⟨0, [], 0⟩ : Mount) ∈ (switchRoot quietEnv .root sampleHost).1.mounts ∧
      (switchRoot quietEnv .root sampleHost).1.root <+: [] := by
  decide

/-! ## The directory `.pivot_root*` -/

/-- A full pivot whose deferred `os.Remove(pivotDir)` fails: `SwitchRoot` returns `nil`,
and `/.pivot_root` is still there in the new root `/a`. -/
theorem switchRoot_cleanup_remove_fails :
    (switchRoot (failingAt .cleanupRemove .EPERM) (.mk true ["a"]) sampleHost).2 = none ∧
      ["a", ".pivot_root"] ∈
        (switchRoot (failingAt .cleanupRemove .EPERM) (.mk true ["a"]) sampleHost).1.dirs ∧
      ["a", ".pivot_root"] ∉ (switchRoot quietEnv (.mk true ["a"]) sampleHost).1.dirs := by
  decide

/-- After the full pivot the deferred `os.Remove(pivotDir)` finds `pivotDir` empty and no
longer a mount point, and removes it. -/
theorem cleanup_removes_after_pivotRoot {env : Env} {path : Path} {name : String}
    {hname : IsElement name} {s s₁ s₂ s₃ : Host} (hq : env.fault .cleanupRemove = none)
    (hfresh : ∀ m ∈ s.mounts, m.point ≠ s.resolve path ++ [name])
    (hd : s.resolve path ++ [name] ∈ s.dirs)
    (hempty : s.hasEntries (s.resolve path ++ [name]) = false)
    (hpiv : s.pivotRoot path (path.joinPath name hname) = .ok s₁)
    (hc : s₁.chdir .root = .ok s₂)
    (hu : s₂.unmount (path.joinPath name hname).joinRootBase = .ok s₃) :
    s.resolve path ++ [name] ∉ (cleanup env
      ⟨s₃, false, (path.joinPath name hname).joinRootBase, none⟩ none).1.dirs := by
  obtain ⟨-, -, hdirs, hfiles, hres, hsub, -⟩ := pivot_full hfresh hpiv hc hu
  -- the unmount detached the old root, and nothing else was ever mounted at `pivotDir`
  have hnone : s₃.mountAt (s.resolve path ++ [name]) = none :=
    List.find?_eq_none.2 fun m hm hp => by
      obtain ⟨m', hm', -, hpt⟩ := hsub m hm
      exact hfresh m' hm' (hpt.trans (of_decide_eq_true hp))
  obtain ⟨s₄, hrm, hd₄⟩ := remove_ok (hres ▸ hdirs ▸ hd) (hres ▸ hnone)
    (hres ▸ (hasEntries_congr hdirs hfiles _).trans hempty)
  rw [cleanup_of_remove hq rfl hrm, hd₄, hres]
  simp

/-- Unless the deferred `os.Remove(pivotDir)` is made to fail, a `nil` from `SwitchRoot`
leaves no `.pivot_root*` directory behind: the body removed it after a failed
`pivot_root`, or the deferred function removes it after the full pivot. -/
theorem switchRoot_removes_pivotDir {env : Env} {path : Path} {s : Host}
    (hq : env.fault .cleanupRemove = none)
    (hnew : s.resolve path ++ [".pivot_root" ++ env.random] ∉ s.dirs)
    (h : (switchRoot env path s).2 = none) :
    s.resolve path ++ [".pivot_root" ++ env.random] ∉ (switchRoot env path s).1.dirs := by
  rcases switchRoot_nil_cases h with ⟨hr, heq⟩ | ⟨s₁, hf, -, hp, heq⟩ <;> rw [heq]
  · rw [(realChroot_nil hr).2.2.2.1]
    exact hnew
  obtain ⟨s₂, hm, hpv, heq'⟩ := switchRootPivot_nil_cases hp
  obtain ⟨hf₂, -, -, -, hd₂, -, -⟩ := mkdirTemp_eq_ok hm
  have hres : s₂.resolve path = s.resolve path := by rw [hf₂.resolve_eq, hf.resolve_eq]
  have hpd : s₂.resolve path ++ [".pivot_root" ++ env.random] ∈ s₂.dirs := by
    simp [hd₂, hf₂.resolve_eq]
  rw [heq', ← hres]
  rcases pivot_nil_cases hpv with ⟨s₃, hrm, hr, hx⟩ | ⟨s₃, s₄, s₅, hpiv, hc, hu, hx⟩ <;> rw [hx]
  · -- `pivot_root` failed and the body removed the directory
    intro hmem
    have hsub := (cleanup_frame env _ none).2.1 _ hmem
    rw [(realChroot_nil hr).2.2.2.1, remove_dir_eq_ok hrm (by simpa using hpd)] at hsub
    simp at hsub
  · exact cleanup_removes_after_pivotRoot hq (mounts_fresh_mkdirTemp hm) hpd
      (hf₂.resolve_eq path ▸ hasEntries_mkdirTemp hm) hpiv hc hu

theorem switchRoot_removes_pivotDir_a :
    sampleHost.resolve (.mk true ["a"]) ++ [".pivot_root" ++ quietEnv.random] ∉
      (switchRoot quietEnv (.mk true ["a"]) sampleHost).1.dirs :=
  switchRoot_removes_pivotDir rfl (by decide) (by decide)

/-! ## Every run, for the directories -/

section Every

variable {env : Env} {path : Path} {s : Host}

/-- The body and the deferred function together remove at most `pivotDir` and, after the
`chroot` fallback, the directory the same path names inside the new root. -/
theorem pivot_cleanup_dirs {name : String} {hname : IsElement name} (err : Option String) :
    (∀ d ∈ (cleanup env (pivot env path (path.joinPath name hname) s) err).1.dirs,
        d ∈ s.dirs) ∧
      ∀ d ∈ s.dirs, d ≠ s.resolve path ++ [name] → d ≠ s.resolve path ++ path.names ++ [name] →
        d ∈ (cleanup env (pivot env path (path.joinPath name hname) s) err).1.dirs := by
  obtain ⟨hsub, hkeep, hres⟩ := @pivot_dirs env path s name hname
  obtain ⟨-, hsub', hkeep', -⟩ := cleanup_frame env (pivot env path (path.joinPath name hname) s) err
  refine ⟨fun d h => hsub d (hsub' d h), fun d h hc hf => hkeep' d (hkeep d h hc) ?_⟩
  rcases hres with h' | h' <;> rw [h'] <;> assumption

/-- `SwitchRoot` from `os.MkdirTemp` on, for the directories. -/
theorem switchRootPivot_dirs :
    (∀ d ∈ (switchRootPivot env path s).1.dirs,
        d ∈ s.dirs ∨ d = s.resolve path ++ [".pivot_root" ++ env.random]) ∧
      ∀ d ∈ s.dirs, d ≠ s.resolve path ++ path.names ++ [".pivot_root" ++ env.random] →
        d ∈ (switchRootPivot env path s).1.dirs := by
  rcases switchRootPivot_cases env path s with ⟨e, heq⟩ | ⟨s₁, hm, heq⟩ <;> rw [heq]
  · exact ⟨fun _ h => .inl h, fun _ h _ => h⟩
  obtain ⟨hf, -, hnew, -, hd, -, -⟩ := mkdirTemp_eq_ok hm
  obtain ⟨hsub, hkeep⟩ := @pivot_cleanup_dirs env path s₁ _ env.name_isElement none
  rw [hd] at hsub hkeep
  rw [hf.resolve_eq] at hkeep
  exact ⟨fun d h => (List.mem_cons.1 (hsub d h)).symm, fun d h hne =>
    hkeep d (List.mem_cons_of_mem _ h) (fun h' => hnew (h' ▸ h)) hne⟩

end Every

/-- Whatever `SwitchRoot` returns, it leaves behind no directory but its own `.pivot_root*`
in `path`, and it removes no directory that existed but one: after `pivot_root` fails and
`realChroot` goes through, the deferred `os.Remove(pivotDir)` reads `pivotDir` inside the
new root, where it names the same path below `path`. -/
theorem switchRoot_keeps_dirs (env : Env) (path : Path) (s : Host) :
    (∀ d ∈ (switchRoot env path s).1.dirs,
        d ∈ s.dirs ∨ d = s.resolve path ++ [".pivot_root" ++ env.random]) ∧
      ∀ d ∈ s.dirs, d ≠ s.resolve path ++ path.names ++ [".pivot_root" ++ env.random] →
        d ∈ (switchRoot env path s).1.dirs := by
  rcases switchRoot_cases env path s with heq | heq | ⟨s₁, hb, heq⟩ <;> rw [heq]
  · exact switchRootPivot_dirs
  · rw [(realChroot_frame env path s).2.1]
    exact ⟨fun _ h => .inl h, fun _ h _ => h⟩
  · rw [← (bindMount_eq_ok hb).2.1, ← (bindMount_eq_ok hb).1.resolve_eq path]
    exact switchRootPivot_dirs

/-- `SwitchRoot("/a")` there: `pivot_root` refuses, the `chroot` fallback returns `nil`, and
the deferred `os.Remove(pivotDir)` deletes `/a/a/.pivot_root`; every other directory stays. -/
theorem switchRoot_keeps_dirs_nested :
    (switchRoot quietEnv (.mk true ["a"]) nestedHost).2 = none ∧
      ["a", "a", ".pivot_root"] ∈ nestedHost.dirs ∧
      ["a", "a", ".pivot_root"] ∉ (switchRoot quietEnv (.mk true ["a"]) nestedHost).1.dirs ∧
      ∀ d ∈ nestedHost.dirs, d ≠ ["a", "a", ".pivot_root"] →
        d ∈ (switchRoot quietEnv (.mk true ["a"]) nestedHost).1.dirs :=
  ⟨by decide, by decide, by decide,
    (switchRoot_keeps_dirs quietEnv (.mk true ["a"]) nestedHost).2⟩

end GoArchive.Mounttree
