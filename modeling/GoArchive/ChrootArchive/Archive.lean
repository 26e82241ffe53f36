import GoArchive.Filepath.Rel

/-!
# `chrootarchive`: resolving paths inside the chroot

`Untar`, `UntarWithRoot`, `UntarUncompressed` and `Tar` run the extractor or the packer
in a process chrooted to `root`. Before that, `resolvePathInChroot` turns the host path
`dest` (or `srcPath`) into the path the chrooted process has to use, by `filepath.Rel`
from `root`. `doUnpack` and `doPack`, which start the chrooted process, are not part of
this source; the model stops at their call and returns the arguments they receive.

## Main definitions

* `ChrootArchive.resolvePathInChroot` — the path of `path` inside a chroot at `root`
* `ChrootArchive.invokeUnpack`, `ChrootArchive.invokePack` — resolve, then call
  `doUnpack` / `doPack`
* `ChrootArchive.untarHandler` — the common body of the `Untar` functions
* `ChrootArchive.LiesBeneath` — `Clean(path)` is `Clean(root)` followed by a relative path

## Main results

* `resolvePathInChroot_of_clean_eq`, `resolvePathInChroot_of_liesBeneath` — what is
  returned for a path at or beneath the root
* `resolvePathInChroot_returns` — the call always returns a value or an error
* `resolvePathInChroot_isOk_iff` — the pairs of paths it refuses: an empty root, one path
  absolute and the other not, or a path that leads with fewer `..` than the root
* `join_clean_resolvePathInChroot` — whatever is returned, inside the chroot it stands for
  `root` or a directory beneath it
* `join_resolvePathInChroot` — whatever is returned, joined to `root` on the host it is
  `Clean(path)`, inside `root` or not
* `resolvePathInChroot_join_sep` — the other way round: the host path of a chroot path
  made of names resolves to that chroot path
* `untarHandler_self_eq_ok` — `Untar` and `UntarUncompressed` reach the extractor, at the
  root of a chroot at `dest`, unless the archive is nil, `dest` is empty or the host fails
* `tar_within_root` — for a path at or beneath the root, `Tar` reaches the packer with the
  path inside the chroot, a trailing `/` kept
* `untarWithRoot_isAbs_eq_ok` — `UntarWithRoot` refuses no absolute `dest`, within the root
  or not, and hands the extractor a path that stands for `Clean(dest)`
* `untarWithRoot_tar_target_eq_iff` — inside the chroot, `UntarWithRoot` and `Tar` act on
  `Clean(path)` exactly when the path lies within the root, and otherwise on another
  directory within it
-/

namespace GoArchive.ChrootArchive

open Filepath

/-- The run-time panic of `rel[0]` on an empty string. -/
def indexPanic : String := "runtime error: index out of range [0] with length 0"

/-- `resolvePathInChroot(root, path)`: the equivalent of `path` inside a chroot rooted at
`root`, always beginning with `/`. -/
def resolvePathInChroot (root path : List Char) : Outcome (List Char) :=
  if root = [] then .error "root path must not be empty" else
  (rel root path).bind fun rel =>
    let rel := if rel = ['.'] then ['/'] else rel
    match rel with
    | [] => .panic indexPanic
    | c :: _ => .ok (if c ≠ '/' then '/' :: rel else rel)

/-- The fields of `archive.TarOptions` that the handlers read: `ExcludePatterns`, `none`
for a nil slice, and the pair `IDMap.RootPair()` returns. -/
structure TarOptions where
  excludePatterns : Option (List String) := none
  rootPair : Nat × Nat := (0, 0)
  deriving DecidableEq, Repr

/-- The arguments of `doUnpack(decompressedArchive, relDest, root, options)`; `decompressed`
records which reader `untarHandler` passed on. -/
structure UnpackCall where
  decompressed : Bool
  relDest : List Char
  root : List Char
  options : TarOptions
  deriving DecidableEq, Repr

/-- The arguments of `doPack(relSrc, root, options)`. -/
structure PackCall where
  relSrc : List Char
  root : List Char
  options : TarOptions
  deriving DecidableEq, Repr

/-- `invokeUnpack`: resolve `dest` inside the chroot and hand it to `doUnpack`. -/
def invokeUnpack (decompressed : Bool) (dest : List Char) (options : TarOptions)
    (root : List Char) : Outcome UnpackCall :=
  (resolvePathInChroot root dest).bind fun relDest => .ok ⟨decompressed, relDest, root, options⟩

/-- Go's `strings.HasSuffix`. -/
def hasSuffix (s suffix : List Char) : Bool := suffix.isSuffixOf s

/-- `invokePack`: resolve `srcPath` inside the chroot, put back a trailing slash that the
resolution dropped, and hand it to `doPack`. -/
def invokePack (srcPath : List Char) (options : TarOptions) (root : List Char) :
    Outcome PackCall :=
  (resolvePathInChroot root srcPath).bind fun relSrc =>
    let relSrc :=
      if hasSuffix srcPath ['/'] ∧ ¬hasSuffix relSrc ['/'] then relSrc ++ ['/'] else relSrc
    .ok ⟨relSrc, root, options⟩

/-- What `untarHandler` asks of the host: whether `os.Stat` reports that a path does not
exist, the error of `user.MkdirAllAndChown`, and the error of
`compression.DecompressStream`. -/
structure UntarHost where
  statNotExist : List Char → Bool
  mkdirAllAndChown : List Char → Nat → Nat × Nat → Option String
  decompressStream : Option String

/-- `untarHandler`: check the archive, default the options, create `dest` when it is the
root, decompress if asked, and unpack. -/
def untarHandler (host : UntarHost) (archiveNil : Bool) (dest : List Char)
    (options : Option TarOptions) (decompress : Bool) (root : List Char) :
    Outcome UnpackCall :=
  if archiveNil then .error "empty archive" else
  let options := options.getD {}
  let options := { options with excludePatterns := some (options.excludePatterns.getD []) }
  let prepared : Outcome (List Char) :=
    if dest = root then
      let dest := clean dest
      if host.statNotExist dest then
        match host.mkdirAllAndChown dest 0o755 options.rootPair with
        | some err => .error err
        | none => .ok dest
      else .ok dest
    else .ok dest
  prepared.bind fun dest =>
    if decompress then
      match host.decompressStream with
      | some err => .error err
      | none => invokeUnpack true dest options root
    else invokeUnpack false dest options root

/-- `Untar`: unpack a possibly compressed archive into `dest`, chrooted to `dest`. -/
def untar (host : UntarHost) (archiveNil : Bool) (dest : List Char)
    (options : Option TarOptions) : Outcome UnpackCall :=
  untarHandler host archiveNil dest options true dest

/-- `UntarWithRoot`: as `Untar`, chrooted to `root`; `dest` must lie within `root`. -/
def untarWithRoot (host : UntarHost) (archiveNil : Bool) (dest : List Char)
    (options : Option TarOptions) (root : List Char) : Outcome UnpackCall :=
  untarHandler host archiveNil dest options true root

/-- `UntarUncompressed`: as `Untar`, for an uncompressed archive. -/
def untarUncompressed (host : UntarHost) (archiveNil : Bool) (dest : List Char)
    (options : Option TarOptions) : Outcome UnpackCall :=
  untarHandler host archiveNil dest options false dest

/-- `Tar`: pack `srcPath` while chrooted to `root`. -/
def tar (srcPath : List Char) (options : Option TarOptions) (root : List Char) :
    Outcome PackCall :=
  invokePack srcPath (options.getD {}) root

/-! ## Paths within the root -/

/-- `Clean(path)` lies lexically beneath `Clean(root)` as `s`: a clean relative path whose
first element is no `..` (and not `.` alone, which names the root itself). -/
def LiesBeneath (root path s : List Char) : Prop :=
  clean s = s ∧ isAbs s = false ∧ s ≠ ['.'] ∧ elemAt s ≠ ['.', '.'] ∧
    clean path = beneath (clean root) s

/-- `Clean(path)` is `Clean(root)` or lies lexically beneath it. -/
def WithinRoot (root path : List Char) : Prop :=
  clean path = clean root ∨ ∃ s, LiesBeneath root path s

theorem withinRoot_clean_iff {root path : List Char} :
    WithinRoot root (clean path) ↔ WithinRoot root path := by
  simp only [WithinRoot, LiesBeneath, clean_clean]

/-- A clean relative path other than `.` whose first element is no `..` is a join of
names. -/
theorem exists_names_of_clean {s : List Char} (hs : clean s = s) (hrel : isAbs s = false)
    (hdot : s ≠ ['.']) (hfirst : elemAt s ≠ ['.', '.']) :
    ∃ ns : List (List Char), ns ≠ [] ∧ (∀ e ∈ ns, IsName e) ∧ s = ['/'].intercalate ns := by
  have hv := parse_valid s
  have hr : (parse s).rooted = false := by rw [parse, parseFrom_rooted]; exact hrel
  rw [clean_eq_render_parse] at hs
  generalize parse s = q at hv hr hs
  subst hs
  have hbuf : q.buffer ≠ [] := fun h => hdot (by rw [Lexical.render, if_pos h])
  have hsb : q.render = ['/'].intercalate q.elems := by
    rw [Lexical.render, if_neg hbuf, Lexical.buffer, hr]
    simp
  have hups : q.ups = 0 := by
    by_contra hu
    obtain ⟨k, hk⟩ := Nat.exists_eq_succ_of_ne_zero hu
    apply hfirst
    rw [hsb, Lexical.elems, hk, List.replicate_succ, List.cons_append,
      elemAt_intercalate_cons (by decide)]
  refine ⟨q.names.reverse, ?_, fun e he => hv.names_isName e (List.mem_reverse.1 he), ?_⟩
  · intro hn
    apply hbuf
    simp [Lexical.buffer, Lexical.elems, hr, hups, List.reverse_eq_nil_iff.1 hn]
  · rw [hsb, Lexical.elems, hups]
    simp

/-- The converse: names joined by separators form a clean relative path whose first
element is a name. -/
theorem clean_intercalate {ns : List (List Char)} (h : ∀ e ∈ ns, IsName e) (hne : ns ≠ []) :
    clean (['/'].intercalate ns) = ['/'].intercalate ns ∧
      isAbs (['/'].intercalate ns) = false ∧ ['/'].intercalate ns ≠ ['.'] ∧
      elemAt (['/'].intercalate ns) ≠ ['.', '.'] := by
  obtain ⟨n, ns', rfl⟩ := List.exists_cons_of_ne_nil hne
  have hwf : ∀ e ∈ n :: ns', e ≠ [] ∧ '/' ∉ e := fun e he => ⟨(h e he).1, (h e he).2.2.2⟩
  have habs := isAbs_intercalate hwf
  have hn := h n (by simp)
  refine ⟨?_, habs, fun hdot => ?_, by rw [elemAt_intercalate_cons hn.2.2.2]; exact hn.2.2.1⟩
  · have hbuf : ['/'].intercalate (n :: ns') ≠ [] := by
      rw [Ne, intercalate_eq_nil (fun e he => (hwf e he).1)]; simp
    rw [clean_eq_render_parse, parse, habs, parseFrom_intercalate _ (fun e he => (hwf e he).2),
      foldl_push_names _ h]
    simp [Lexical.render, Lexical.buffer, Lexical.elems, hbuf]
  · apply hn.2.1
    rw [← elemAt_intercalate_cons hn.2.2.2 ns', hdot]
    rfl

/-- Names joined after the root are already clean. -/
theorem clean_sep_intercalate {ns : List (List Char)} (h : ∀ e ∈ ns, IsName e) :
    clean ('/' :: ['/'].intercalate ns) = '/' :: ['/'].intercalate ns := by
  rw [clean_eq_render_parse, parse, isAbs_cons, parseFrom_sep_cons, Lexical.push_nil,
    parseFrom_intercalate _ (fun e he => (h e he).2.2.2), foldl_push_names _ h,
    render_of_rooted (by simp)]
  simp [Lexical.elems]

/-- The elements of `/` followed by names: the empty element before the root, then the
names. -/
theorem splitOn_sep_intercalate {ns : List (List Char)} (h : ∀ e ∈ ns, IsName e)
    (hne : ns ≠ []) : ('/' :: ['/'].intercalate ns).splitOn '/' = [] :: ns := by
  rw [List.splitOn, List.splitOnP_cons, if_pos (by simp), ← List.splitOn,
    List.splitOn_intercalate ns '/' (fun e he => (h e he).2.2.2) hne]

/-- A cleaned absolute path is `/` followed by names. -/
theorem clean_of_isAbs {r : List Char} (hr : isAbs r = true) :
    ∃ ns : List (List Char), (∀ e ∈ ns, IsName e) ∧ clean r = '/' :: ['/'].intercalate ns := by
  have hv := parse_valid r
  have hroot : (parse r).rooted = true := by rw [parse, parseFrom_rooted]; exact hr
  refine ⟨(parse r).names.reverse, fun e he => hv.names_isName e (List.mem_reverse.1 he), ?_⟩
  rw [clean_eq_render_parse, render_of_rooted hroot, Lexical.elems, hv.ups_of_rooted hroot]
  rfl

/-- Pushing names on a reading writes them beneath its text. -/
theorem render_foldl_names {q : Lexical} (hq : q.Valid) {ns : List (List Char)}
    (h : ∀ e ∈ ns, IsName e) (hne : ns ≠ []) :
    (ns.foldl Lexical.push q).render = beneath q.render (['/'].intercalate ns) := by
  have hs : ['/'].intercalate ns ≠ [] := by
    rwa [Ne, intercalate_eq_nil (fun e he => (h e he).1)]
  have helems : ({ q with names := ns.reverse ++ q.names } : Lexical).elems = q.elems ++ ns := by
    simp [Lexical.elems]
  rw [foldl_push_names _ h]
  unfold Lexical.render
  rw [Lexical.buffer, helems, intercalate_append]
  by_cases he : q.elems = []
  · cases hr : q.rooted <;> simp [Lexical.buffer, he, hr, hs, beneath]
  · have hb : ['/'].intercalate q.elems ≠ [] := by
      rwa [Ne, intercalate_eq_nil (Lexical.elems_ne_nil_of_mem hq)]
    have hdot := buffer_ne_dot hq
    have hroot : ['/'].intercalate q.elems ≠ ['/'] := fun h' => by
      simpa [h', isAbs] using isAbs_intercalate (Lexical.elems_wf hq)
    cases hr : q.rooted <;> simp_all [Lexical.buffer, beneath]

/-- `Join(root, "/")` is the cleaned root. -/
theorem join_sep {root : List Char} (hroot : root ≠ []) : join [root, ['/']] = clean root := by
  rw [join_pair hroot, clean_eq_render_parse]
  simp

/-- `Join(root, ".")` is the cleaned root. -/
theorem join_dot {root : List Char} (hroot : root ≠ []) : join [root, ['.']] = clean root := by
  rw [join_pair hroot, clean_eq_render_parse, parseFrom_of_sep_not_mem _ _ (by decide)]
  simp

/-- A leading `/` changes nothing once joined to the root. -/
theorem join_sep_cons {root : List Char} (hroot : root ≠ []) (x : List Char) :
    join [root, '/' :: x] = join [root, x] := by
  rw [join_pair hroot, join_pair hroot, parseFrom_sep_cons, Lexical.push_nil]

/-- `Join(root, "/" + s)` for names `s` is `s` beneath the cleaned root. -/
theorem join_sep_intercalate {root : List Char} (hroot : root ≠ []) {ns : List (List Char)}
    (h : ∀ e ∈ ns, IsName e) (hne : ns ≠ []) :
    join [root, '/' :: ['/'].intercalate ns] = beneath (clean root) (['/'].intercalate ns) := by
  rw [join_sep_cons hroot, join_pair hroot, clean_eq_render_parse,
    parseFrom_intercalate _ (fun e he => (h e he).2.2.2),
    render_foldl_names (parse_valid root) h hne]

/-- Inside a chroot at `root` an absolute path `r` names `Join(root, Clean(r))`, which is
`root` or a directory beneath it: a `..` stops at the root of the chroot. -/
theorem withinRoot_join_clean {root r : List Char} (hroot : root ≠ []) (habs : isAbs r = true) :
    WithinRoot root (join [root, clean r]) := by
  obtain ⟨ns, hns, hr⟩ := clean_of_isAbs habs
  have hjoin : ∀ x, clean (join [root, x]) = join [root, x] := fun x => by
    rw [join, if_neg hroot, clean_clean]
  rw [hr]
  rcases eq_or_ne ns [] with rfl | hne
  · left
    rw [intercalate_nil, join_sep hroot, clean_clean]
  · obtain ⟨hclean, habs', hdot, hfirst⟩ := clean_intercalate hns hne
    exact .inr ⟨_, hclean, habs', hdot, hfirst, by rw [hjoin, join_sep_intercalate hroot hns hne]⟩

/-- `Clean` drops a trailing separator. -/
theorem clean_append_sep {r : List Char} (hr : r ≠ []) : clean (r ++ ['/']) = clean r := by
  rw [clean_eq_render_parse, clean_eq_render_parse, parse_append_sep hr, parseFrom_nil,
    Lexical.push_nil]

/-! ## What `resolvePathInChroot` returns -/

section Resolve

variable {root path r : List Char}

/-- After `Rel` returns `r`, `.` becomes the root and a relative `r` gets a leading `/`. -/
theorem resolvePathInChroot_of_rel (hroot : root ≠ []) (h : rel root path = .ok r) :
    resolvePathInChroot root path =
      .ok (if r = ['.'] then ['/'] else if isAbs r then r else '/' :: r) := by
  obtain ⟨c, t, rfl⟩ := List.exists_cons_of_ne_nil (rel_ne_nil h)
  rw [resolvePathInChroot, if_neg hroot, h, Outcome.ok_bind]
  by_cases hdot : c :: t = ['.']
  · simp [hdot]
  · simp [hdot, isAbs_cons]

/-- Every way `resolvePathInChroot` can end: an error, or the value `Rel` returned with
`.` turned into the root and a leading `/` put in front. -/
theorem resolvePathInChroot_cases (root path : List Char) :
    (∃ msg, resolvePathInChroot root path = .error msg) ∨
      ∃ r, root ≠ [] ∧ rel root path = .ok r ∧ resolvePathInChroot root path =
        .ok (if r = ['.'] then ['/'] else if isAbs r then r else '/' :: r) := by
  by_cases hroot : root = []
  · exact .inl ⟨"root path must not be empty", by simp [resolvePathInChroot, hroot]⟩
  rcases h : rel root path with r | msg | msg | _
  · exact .inr ⟨r, hroot, rfl, resolvePathInChroot_of_rel hroot h⟩
  · exact .inl ⟨msg, by simp [resolvePathInChroot, hroot, h]⟩
  · exact absurd h (rel_ne_panic _ _ _)
  · exact absurd h (rel_ne_hang _ _)

/-- A path `resolvePathInChroot` returns is absolute, and the root it was resolved from is
not empty. -/
theorem resolvePathInChroot_eq_ok_isAbs (h : resolvePathInChroot root path = .ok r) :
    root ≠ [] ∧ isAbs r = true := by
  rcases resolvePathInChroot_cases root path with ⟨_, h'⟩ | ⟨r₀, hroot, -, h'⟩ <;> rw [h'] at h
  · cases h
  cases h
  refine ⟨hroot, ?_⟩
  split_ifs with h₁ h₂ <;> first | rfl | exact h₂

theorem resolvePathInChroot_of_clean_eq (hroot : root ≠ []) (h : clean path = clean root) :
    resolvePathInChroot root path = .ok ['/'] := by
  rw [resolvePathInChroot_of_rel hroot (rel_of_clean_eq h), if_pos rfl]

theorem resolvePathInChroot_of_liesBeneath (hroot : root ≠ []) {s : List Char}
    (h : LiesBeneath root path s) : resolvePathInChroot root path = .ok ('/' :: s) := by
  obtain ⟨hclean, habs, hdot, -, heq⟩ := h
  have helem := elemAt_ne_nil_of_isAbs_eq_false (fun hs => clean_ne_nil s (hs ▸ hclean)) habs
  rw [resolvePathInChroot_of_rel hroot (rel_of_beneath helem heq), if_neg hdot, habs]
  rfl

/-- A path within the root resolves to a clean absolute path with no `..` element that,
joined to the root, is the cleaned path again. -/
theorem resolvePathInChroot_of_withinRoot (hroot : root ≠ []) (h : WithinRoot root path)
    (hr : resolvePathInChroot root path = .ok r) :
    clean r = r ∧ isAbs r = true ∧ ['.', '.'] ∉ r.splitOn '/' ∧ join [root, r] = clean path := by
  rcases h with heq | ⟨s, hs⟩
  · rw [resolvePathInChroot_of_clean_eq hroot heq] at hr
    cases hr
    exact ⟨by decide, rfl, by decide, by rw [join_sep hroot, heq]⟩
  · rw [resolvePathInChroot_of_liesBeneath hroot hs] at hr
    cases hr
    obtain ⟨hclean, habs, hdot, hfirst, heq⟩ := hs
    obtain ⟨ns, hne, hns, rfl⟩ := exists_names_of_clean hclean habs hdot hfirst
    refine ⟨clean_sep_intercalate hns, rfl, ?_, by rw [join_sep_intercalate hroot hns hne, heq]⟩
    rw [splitOn_sep_intercalate hns hne, List.mem_cons]
    rintro (h | h)
    · exact absurd h (by decide)
    · exact (hns _ h).2.2.1 rfl

/-- Turning `Rel`'s `.` into `/` and putting a `/` in front of a relative answer, as
`resolvePathInChroot` does, changes nothing once the answer is joined to the root. -/
theorem join_resolved (hroot : root ≠ []) (r₀ : List Char) :
    join [root, if r₀ = ['.'] then ['/'] else if isAbs r₀ then r₀ else '/' :: r₀] =
      join [root, r₀] := by
  split_ifs with h₁ h₂
  · rw [h₁, join_sep hroot, join_dot hroot]
  · rfl
  · exact join_sep_cons hroot r₀

/-- Inside the chroot at `root`, the path `resolvePathInChroot` returns names `Clean(path)`
exactly when `path` lies within `root`, and otherwise another directory within `root`. -/
theorem resolvePathInChroot_target (h : resolvePathInChroot root path = .ok r) :
    WithinRoot root (join [root, clean r]) ∧
      (join [root, clean r] = clean path ↔ WithinRoot root path) := by
  obtain ⟨hroot, habs⟩ := resolvePathInChroot_eq_ok_isAbs h
  have hin := withinRoot_join_clean hroot habs
  refine ⟨hin, fun heq => ?_, fun hw => ?_⟩
  · rwa [heq, withinRoot_clean_iff] at hin
  · obtain ⟨hc, -, -, hj⟩ := resolvePathInChroot_of_withinRoot hroot hw h
    rw [hc, hj]

end Resolve

/-! ## The handlers -/

section Handlers

variable {host : UntarHost} {archiveNil decompress : Bool} {dest root : List Char}
  {options : Option TarOptions} {call : UnpackCall}

theorem invokeUnpack_eq_ok {decompressed : Bool} {opts : TarOptions} :
    invokeUnpack decompressed dest opts root = .ok call ↔
      ∃ relDest, resolvePathInChroot root dest = .ok relDest ∧
        call = ⟨decompressed, relDest, root, opts⟩ := by
  simp only [invokeUnpack, Outcome.bind_eq_ok, Outcome.ok.injEq]
  exact exists_congr fun _ => and_congr_right fun _ => eq_comm

/-- `untarHandler` reaches `doUnpack` only through `invokeUnpack`, with `dest` cleaned when
it is the root. -/
theorem untarHandler_eq_ok
    (h : untarHandler host archiveNil dest options decompress root = .ok call) :
    ∃ opts, invokeUnpack decompress (if dest = root then clean dest else dest) opts root =
      .ok call := by
  unfold untarHandler at h
  by_cases ha : archiveNil = true
  · simp [ha] at h
  rw [if_neg ha] at h
  obtain ⟨d, hprep, hcall⟩ := Outcome.bind_eq_ok.1 h
  have hd : d = if dest = root then clean dest else dest := by
    by_cases hdr : dest = root
    · rw [if_pos hdr] at hprep ⊢
      dsimp only at hprep
      split_ifs at hprep
      · split at hprep
        · cases hprep
        · cases hprep; rfl
      · cases hprep; rfl
    · rw [if_neg hdr] at hprep ⊢
      cases hprep; rfl
  rw [← hd]
  cases decompress
  · exact ⟨_, hcall⟩
  · rw [if_pos rfl] at hcall
    split at hcall
    · cases hcall
    · exact ⟨_, hcall⟩

/-- Past its checks, `untarHandler` is `invokeUnpack` on `dest`, cleaned when it is the
root, with `ExcludePatterns` defaulted. -/
theorem untarHandler_eq_invokeUnpack
    (hmk : dest = root → host.statNotExist (clean dest) = true →
      host.mkdirAllAndChown (clean dest) 0o755 (options.getD {}).rootPair = none)
    (hdec : decompress = true → host.decompressStream = none) :
    untarHandler host false dest options decompress root =
      invokeUnpack decompress (if dest = root then clean dest else dest)
        { options.getD {} with excludePatterns := some ((options.getD {}).excludePatterns.getD []) }
        root := by
  unfold untarHandler
  generalize options.getD {} = o at hmk ⊢
  by_cases hdr : dest = root
  · subst hdr
    cases decompress <;> by_cases hs : host.statNotExist (clean dest) = true <;>
      simp [hs, hmk rfl, hdec]
  · cases decompress <;> simp [hdr, hdec]

/-- `Untar` and `UntarUncompressed` chroot to `dest` itself, so the extractor is handed
the root of the chroot. -/
theorem untarHandler_self_relDest (hdest : dest ≠ [])
    (h : untarHandler host archiveNil dest options decompress dest = .ok call) :
    call.relDest = ['/'] := by
  obtain ⟨opts, h⟩ := untarHandler_eq_ok h
  rw [if_pos rfl, invokeUnpack_eq_ok,
    resolvePathInChroot_of_clean_eq hdest (clean_clean dest)] at h
  obtain ⟨_, ⟨⟩, rfl⟩ := h
  rfl

theorem invokePack_eq_ok {srcPath : List Char} {opts : TarOptions} {call : PackCall} :
    invokePack srcPath opts root = .ok call ↔
      ∃ relSrc, resolvePathInChroot root srcPath = .ok relSrc ∧
        call = ⟨if hasSuffix srcPath ['/'] ∧ ¬hasSuffix relSrc ['/'] then relSrc ++ ['/']
          else relSrc, root, opts⟩ := by
  simp only [invokePack, Outcome.bind_eq_ok, Outcome.ok.injEq]
  exact exists_congr fun _ => and_congr_right fun _ => eq_comm

theorem hasSuffix_append_sep (l : List Char) : hasSuffix (l ++ ['/']) ['/'] = true := by
  simp [hasSuffix, List.isSuffixOf]

/-- A path whose last element is a name ends in neither `/` nor `/.`. -/
theorem hasSuffix_append_name (a : List Char) {e : List Char} (he : IsName e) :
    hasSuffix (a ++ e) ['/'] = false ∧ hasSuffix (a ++ e) ['/', '.'] = false := by
  obtain ⟨e', x, rfl⟩ := (List.eq_nil_or_concat e).resolve_left he.1
  rw [List.concat_eq_append] at he ⊢
  have hx : x ≠ '/' := fun hx => he.2.2.2 (by simp [hx])
  refine ⟨by simp [hasSuffix, List.isSuffixOf, List.isPrefixOf, Ne.symm hx], ?_⟩
  by_cases hdot : x = '.'
  · subst hdot
    obtain ⟨e'', y, rfl⟩ :=
      (List.eq_nil_or_concat e').resolve_left (by rintro rfl; exact he.2.1 rfl)
    have hy : y ≠ '/' := fun hy => he.2.2.2 (by simp [hy])
    simp [hasSuffix, List.isSuffixOf, List.isPrefixOf, Ne.symm hy]
  · simp [hasSuffix, List.isSuffixOf, List.isPrefixOf, Ne.symm hdot]

theorem hasSuffix_sep_intercalate {ns : List (List Char)} (h : ∀ e ∈ ns, IsName e)
    (hne : ns ≠ []) :
    hasSuffix ('/' :: ['/'].intercalate ns) ['/'] = false ∧
      hasSuffix ('/' :: ['/'].intercalate ns) ['/', '.'] = false := by
  obtain ⟨init, e, rfl⟩ := (List.eq_nil_or_concat ns).resolve_left hne
  rw [List.concat_eq_append, intercalate_append_singleton, ← List.cons_append]
  exact hasSuffix_append_name _ (h e (by simp))

end Handlers

/-! ## Main results -/

section Results

/-- Whatever `resolvePathInChroot` returns, `Rel` returned a non-empty path before it, it
does not panic on `rel[0]`, and its result begins with `/`. -/
theorem resolvePathInChroot_head_sep (root path : List Char) :
    (∀ r, rel root path = .ok r → r ≠ []) ∧
      (∀ msg, resolvePathInChroot root path ≠ .panic msg) ∧
      ∀ r, resolvePathInChroot root path = .ok r → r.head? = some '/' := by
  refine ⟨fun _ => rel_ne_nil, ?_⟩
  rcases resolvePathInChroot_cases root path with ⟨msg, h⟩ | ⟨r, -, hrel, h⟩ <;> rw [h]
  · simp
  · refine ⟨by simp, fun r' hr' => ?_⟩
    cases hr'
    obtain ⟨c, t, rfl⟩ := List.exists_cons_of_ne_nil (rel_ne_nil hrel)
    split_ifs with h₁ h₂
    · rfl
    · simpa [isAbs_cons] using h₂
    · rfl

/-- `resolvePathInChroot` always returns, with a value or an error. -/
theorem resolvePathInChroot_returns (root path : List Char) :
    (∃ r, resolvePathInChroot root path = .ok r) ∨
      ∃ msg, resolvePathInChroot root path = .error msg := by
  rcases resolvePathInChroot_cases root path with h | ⟨_, -, -, h⟩
  · exact .inr h
  · exact .inl ⟨_, h⟩

/-- `resolvePathInChroot` returns a path exactly when `root` is not empty, `root` and `path`
are both absolute or both relative, and `Clean(path)` leads with at least as many `..` as
`Clean(root)`; it returns an error exactly on every other pair. In particular it never
refuses two absolute paths, whether `path` lies within `root` or not. -/
theorem resolvePathInChroot_isOk_iff (root path : List Char) :
    ((∃ r, resolvePathInChroot root path = .ok r) ↔
        root ≠ [] ∧ isAbs root = isAbs path ∧ (parse root).ups ≤ (parse path).ups) ∧
      ((∃ msg, resolvePathInChroot root path = .error msg) ↔
        ¬(root ≠ [] ∧ isAbs root = isAbs path ∧ (parse root).ups ≤ (parse path).ups)) := by
  have hok : (∃ r, resolvePathInChroot root path = .ok r) ↔
      root ≠ [] ∧ isAbs root = isAbs path ∧ (parse root).ups ≤ (parse path).ups := by
    by_cases hroot : root = []
    · simp [resolvePathInChroot, hroot]
    rw [← rel_isOk_iff, and_iff_right hroot]
    rcases h : rel root path with r | msg | msg | _
    · simp [resolvePathInChroot_of_rel hroot h]
    · simp [resolvePathInChroot, hroot, h]
    · exact absurd h (rel_ne_panic _ _ _)
    · exact absurd h (rel_ne_hang _ _)
  -- the other outcome is an error: `resolvePathInChroot` always returns
  refine ⟨hok, ?_⟩
  rw [← hok]
  rcases resolvePathInChroot_returns root path with ⟨r, h⟩ | ⟨msg, h⟩ <;> simp [h]

/-- Whatever `resolvePathInChroot` returns, the directory it stands for inside a chroot at
`root`, `Join(root, Clean(r))`, is `root` or lies beneath it: a `..` in `r` stops at the
root of the chroot. -/
theorem join_clean_resolvePathInChroot {root path r : List Char}
    (h : resolvePathInChroot root path = .ok r) : WithinRoot root (join [root, clean r]) :=
  withinRoot_join_clean (resolvePathInChroot_eq_ok_isAbs h).1
    (resolvePathInChroot_eq_ok_isAbs h).2

theorem join_clean_resolvePathInChroot_sibling :
    WithinRoot ['/', 'a', '/', 'b'] (join [['/', 'a', '/', 'b'], clean ['/', '.', '.', '/', 'c']]) := by
  have hb : clean ['/', 'a', '/', 'b'] = ['/', 'a', '/', 'b'] := by decide
  have hc : clean ['/', 'a', '/', 'c'] = ['/', 'a', '/', 'c'] := by decide
  exact @join_clean_resolvePathInChroot ['/', 'a', '/', 'b'] ['/', 'a', '/', 'c']
    ['/', '.', '.', '/', 'c']
    (by simp [resolvePathInChroot, rel, hb, hc, relLoop_eq, elemAt, afterElem, relResult, isAbs])

/-- Joined to the root, the chroot path names the path it was resolved from, inside the
root or not: it is `Rel`'s answer, and a leading `/` or a `/` for `.` changes nothing. -/
theorem join_resolvePathInChroot (h : resolvePathInChroot root path = .ok r) :
    join [root, r] = clean path := by
  rcases resolvePathInChroot_cases root path with ⟨_, h'⟩ | ⟨r₀, hroot, hrel, h'⟩
  · rw [h'] at h
    cases h
  rw [h'] at h
  cases h
  rw [← join_rel hrel]
  split_ifs with h₁ h₂
  · rw [h₁, join_sep hroot, join_dot hroot]
  · rfl
  · exact join_sep_cons hroot r₀

theorem join_resolvePathInChroot_sibling :
    join [['/', 'a', '/', 'b'], ['/', '.', '.', '/', 'c']] = clean ['/', 'a', '/', 'c'] := by
  have hb : clean ['/', 'a', '/', 'b'] = ['/', 'a', '/', 'b'] := by decide
  have hc : clean ['/', 'a', '/', 'c'] = ['/', 'a', '/', 'c'] := by decide
  exact join_resolvePathInChroot
    (by simp [resolvePathInChroot, rel, hb, hc, relLoop_eq, elemAt, afterElem, relResult, isAbs])

/-- For a path at or beneath the root, the chroot path is `/` or `/` followed by the path
beneath; it is a clean absolute path with no `..` element, and joined to the root it is
the cleaned path. `Untar` and `UntarUncompressed` hand the extractor `/`. -/
theorem resolvePathInChroot_within_root (root path : List Char) (hroot : root ≠ []) :
    (clean path = clean root → resolvePathInChroot root path = .ok ['/']) ∧
      (∀ s, LiesBeneath root path s → resolvePathInChroot root path = .ok ('/' :: s)) ∧
      (WithinRoot root path → ∀ r, resolvePathInChroot root path = .ok r →
        clean r = r ∧ isAbs r = true ∧ ['.', '.'] ∉ r.splitOn '/' ∧
          join [root, r] = clean path) ∧
      ∀ host archiveNil dest options call, dest ≠ [] →
        (untar host archiveNil dest options = .ok call ∨
          untarUncompressed host archiveNil dest options = .ok call) → call.relDest = ['/'] :=
  ⟨resolvePathInChroot_of_clean_eq hroot, fun _ => resolvePathInChroot_of_liesBeneath hroot,
    fun h _ => resolvePathInChroot_of_withinRoot hroot h,
    fun _ _ _ _ _ hdest h => h.elim (untarHandler_self_relDest hdest)
      (untarHandler_self_relDest hdest)⟩

theorem resolvePathInChroot_within_root_ab :
    resolvePathInChroot ['/', 'a'] ['/', 'a', '/', '.', '/', 'b', '/'] = .ok ['/', 'b'] :=
  (resolvePathInChroot_within_root _ _ (by decide)).2.1 _ ⟨by decide, rfl, by decide, by decide,
    by decide⟩

/-- With `Clean(root) = "."`, the path `.` is both the root and `.` beneath it; the call
returns `/`, not `/.`. -/
theorem resolvePathInChroot_dot_dot :
    clean ['.'] = ['.'] ∧ isAbs ['.'] = false ∧ elemAt ['.'] ≠ ['.', '.'] ∧
      clean ['.'] = beneath (clean ['.']) ['.'] ∧
      resolvePathInChroot ['.'] ['.'] = .ok ['/'] ∧ (['/'] : List Char) ≠ '/' :: ['.'] :=
  ⟨by decide, rfl, by decide, by decide,
    resolvePathInChroot_of_clean_eq (by decide) rfl, by decide⟩

/-- A sibling of the root is not refused: `resolvePathInChroot("/a/b", "/a/c")` returns
`/../c`, whose `..` the chroot stops at its root, so `UntarWithRoot` extracts into
`/a/b/c` instead of returning an error. -/
theorem resolvePathInChroot_sibling :
    resolvePathInChroot ['/', 'a', '/', 'b'] ['/', 'a', '/', 'c'] =
        .ok ['/', '.', '.', '/', 'c'] ∧
      ¬WithinRoot ['/', 'a', '/', 'b'] ['/', 'a', '/', 'c'] ∧
      ['.', '.'] ∈ (['/', '.', '.', '/', 'c'] : List Char).splitOn '/' ∧
      join [['/', 'a', '/', 'b'], clean ['/', '.', '.', '/', 'c']] = ['/', 'a', '/', 'b', '/', 'c'] ∧
      clean ['/', 'a', '/', 'c'] ≠ ['/', 'a', '/', 'b', '/', 'c'] ∧
      untarWithRoot ⟨fun _ => false, fun _ _ _ => none, none⟩ false ['/', 'a', '/', 'c'] none
          ['/', 'a', '/', 'b'] =
        .ok ⟨true, ['/', '.', '.', '/', 'c'], ['/', 'a', '/', 'b'], { excludePatterns := some [] }⟩ := by
  have hb : clean ['/', 'a', '/', 'b'] = ['/', 'a', '/', 'b'] := by decide
  have hc : clean ['/', 'a', '/', 'c'] = ['/', 'a', '/', 'c'] := by decide
  have hres : resolvePathInChroot ['/', 'a', '/', 'b'] ['/', 'a', '/', 'c'] =
      .ok ['/', '.', '.', '/', 'c'] := by
    simp [resolvePathInChroot, rel, hb, hc, relLoop_eq, elemAt, afterElem, relResult, isAbs]
  refine ⟨hres, ?_, by decide, by decide, by decide, ?_⟩
  · rintro (h | ⟨s, -, -, -, -, h⟩)
    · rw [hb, hc] at h
      exact absurd h (by decide)
    · rw [hb, hc] at h
      simp [beneath] at h
  · simp [untarWithRoot, untarHandler, invokeUnpack, hres]

/-- `/a/b/.` asks for `/a/b` dereferenced, but inside a chroot at `/a` the packer is
handed `/b`: only a trailing `/` is put back. -/
theorem invokePack_sep_dot :
    WithinRoot ['/', 'a'] ['/', 'a', '/', 'b', '/', '.'] ∧
      hasSuffix ['/', 'a', '/', 'b', '/', '.'] ['/', '.'] = true ∧
      invokePack ['/', 'a', '/', 'b', '/', '.'] {} ['/', 'a'] = .ok ⟨['/', 'b'], ['/', 'a'], {}⟩ ∧
      hasSuffix ['/', 'b'] ['/'] = false ∧ hasSuffix ['/', 'b'] ['/', '.'] = false := by
  have hbeneath : LiesBeneath ['/', 'a'] ['/', 'a', '/', 'b', '/', '.'] ['b'] :=
    ⟨by decide, rfl, by decide, by decide, by decide⟩
  refine ⟨.inr ⟨_, hbeneath⟩, by decide, ?_, by decide, by decide⟩
  rw [invokePack, resolvePathInChroot_of_liesBeneath (by decide) hbeneath]
  rfl

/-- `invokePack` keeps a trailing `/` of `srcPath`. For a path at or beneath the root
that does not end in `/`, the packer's path ends in `/` only when it is the chroot root,
and never in `/.`. -/
theorem invokePack_relSrc_suffix {srcPath root : List Char} {options : TarOptions}
    {call : PackCall} (h : invokePack srcPath options root = .ok call) :
    (hasSuffix srcPath ['/'] = true → hasSuffix call.relSrc ['/'] = true) ∧
      (WithinRoot root srcPath → hasSuffix srcPath ['/'] = false →
        hasSuffix call.relSrc ['/', '.'] = false ∧
          (hasSuffix call.relSrc ['/'] = true → call.relSrc = ['/'])) := by
  obtain ⟨relSrc, hres, rfl⟩ := invokePack_eq_ok.1 h
  have hroot : root ≠ [] := by
    rintro rfl
    simp [resolvePathInChroot] at hres
  refine ⟨fun hsep => ?_, fun hwithin hsep => ?_⟩
  · by_cases hr : hasSuffix relSrc ['/'] = true
    · simp [hr]
    · simp [hsep, hr, hasSuffix_append_sep]
  · simp only [hsep, Bool.false_eq_true, false_and, if_false]
    rcases hwithin with heq | ⟨s, hs⟩
    · rw [resolvePathInChroot_of_clean_eq hroot heq] at hres
      cases hres
      exact ⟨by decide, fun _ => rfl⟩
    · rw [resolvePathInChroot_of_liesBeneath hroot hs] at hres
      cases hres
      obtain ⟨hclean, habs, hdot, hfirst, -⟩ := hs
      obtain ⟨ns, hne, hns, rfl⟩ := exists_names_of_clean hclean habs hdot hfirst
      obtain ⟨h₁, h₂⟩ := hasSuffix_sep_intercalate hns hne
      exact ⟨h₂, fun h => absurd (h₁ ▸ h) (by decide)⟩

/-- `invokePack` of `/a/b/` chrooted to `/a`: `srcPath` ends in `/`, and so does the path
`/b/` it hands `doPack`. -/
theorem invokePack_relSrc_suffix_ab :
    invokePack ['/', 'a', '/', 'b', '/'] {} ['/', 'a'] = .ok ⟨['/', 'b', '/'], ['/', 'a'], {}⟩ ∧
      hasSuffix ['/', 'a', '/', 'b', '/'] ['/'] = true ∧
      hasSuffix (PackCall.relSrc ⟨['/', 'b', '/'], ['/', 'a'], {}⟩) ['/'] = true := by
  have hbeneath : LiesBeneath ['/', 'a'] ['/', 'a', '/', 'b', '/'] ['b'] :=
    ⟨by decide, rfl, by decide, by decide, by decide⟩
  have hcall : invokePack ['/', 'a', '/', 'b', '/'] {} ['/', 'a'] =
      .ok ⟨['/', 'b', '/'], ['/', 'a'], {}⟩ := by
    rw [invokePack, resolvePathInChroot_of_liesBeneath (by decide) hbeneath]
    rfl
  exact ⟨hcall, rfl, (invokePack_relSrc_suffix hcall).1 rfl⟩

/-- `Tar` of a path at or beneath the root reaches `doPack` with `/`, or `/` followed by
the path beneath, inside the chroot, and keeps a trailing `/` of `srcPath`. -/
theorem tar_within_root {srcPath root : List Char} {options : Option TarOptions}
    (hroot : root ≠ []) :
    (clean srcPath = clean root → tar srcPath options root = .ok ⟨['/'], root, options.getD {}⟩) ∧
      ∀ s, LiesBeneath root srcPath s → tar srcPath options root =
        .ok ⟨'/' :: s ++ (if hasSuffix srcPath ['/'] then ['/'] else []), root, options.getD {}⟩ := by
  refine ⟨fun heq => ?_, fun s hs => ?_⟩
  · rw [tar, invokePack, resolvePathInChroot_of_clean_eq hroot heq]
    simp [show hasSuffix ['/'] ['/'] = true from rfl]
  · rw [tar, invokePack, resolvePathInChroot_of_liesBeneath hroot hs]
    obtain ⟨hclean, habs, hdot, hfirst, -⟩ := hs
    obtain ⟨ns, hne, hns, rfl⟩ := exists_names_of_clean hclean habs hdot hfirst
    by_cases hsep : hasSuffix srcPath ['/'] = true <;>
      simp [hsep, (hasSuffix_sep_intercalate hns hne).1]

theorem tar_within_root_ab :
    tar ['/', 'a', '/', 'b', '/'] none ['/', 'a'] = .ok ⟨['/', 'b', '/'], ['/', 'a'], {}⟩ :=
  (tar_within_root (by decide)).2 ['b'] ⟨by decide, rfl, by decide, by decide, by decide⟩

/-- `Untar` and `UntarUncompressed` reach `doUnpack` unless the archive is nil, `dest` is
empty, or `MkdirAllAndChown` or `DecompressStream` fails: the extractor is handed the root
of a chroot at `dest`, and the options with `ExcludePatterns` defaulted. -/
theorem untarHandler_self_eq_ok {host : UntarHost} {dest : List Char}
    {options : Option TarOptions} {decompress : Bool} (hdest : dest ≠ [])
    (hmk : host.statNotExist (clean dest) = true →
      host.mkdirAllAndChown (clean dest) 0o755 (options.getD {}).rootPair = none)
    (hdec : decompress = true → host.decompressStream = none) :
    untarHandler host false dest options decompress dest =
      .ok ⟨decompress, ['/'], dest,
        { options.getD {} with excludePatterns := some ((options.getD {}).excludePatterns.getD []) }⟩ := by
  have hres := resolvePathInChroot_of_clean_eq hdest (clean_clean dest)
  unfold untarHandler
  generalize options.getD {} = o at hmk ⊢
  cases decompress <;> by_cases hs : host.statNotExist (clean dest) = true <;>
    simp [invokeUnpack, hres, hs, hmk, hdec]

theorem untarHandler_self_eq_ok_a :
    untar ⟨fun _ => false, fun _ _ _ => none, none⟩ false ['/', 'a'] none =
      .ok ⟨true, ['/'], ['/', 'a'], { excludePatterns := some [] }⟩ :=
  untarHandler_self_eq_ok (by decide) (fun h => by simp at h) (fun _ => rfl)

/-- For an absolute `root` and an absolute `dest`, within `root` or not, `UntarWithRoot`
never refuses `dest`: unless the host fails, it reaches `doUnpack` chrooted to `root`, with
a path that, joined to `root` on the host, is `Clean(dest)`. -/
theorem untarWithRoot_isAbs_eq_ok {host : UntarHost} {dest root : List Char}
    {options : Option TarOptions} (hroot : isAbs root = true) (hdest : isAbs dest = true)
    (hmk : dest = root → host.statNotExist (clean dest) = true →
      host.mkdirAllAndChown (clean dest) 0o755 (options.getD {}).rootPair = none)
    (hdec : host.decompressStream = none) :
    ∃ relDest, untarWithRoot host false dest options root =
        .ok ⟨true, relDest, root, { options.getD {} with
          excludePatterns := some ((options.getD {}).excludePatterns.getD []) }⟩ ∧
      join [root, relDest] = clean dest := by
  have hne : root ≠ [] := by rintro rfl; cases hroot
  have hups : (parse root).ups = 0 :=
    (parse_valid root).ups_of_rooted ((parse_rooted root).trans hroot)
  rw [untarWithRoot, untarHandler_eq_invokeUnpack hmk (fun _ => hdec)]
  generalize hd : (if dest = root then clean dest else dest) = d
  -- the path handed on is absolute and cleans to `Clean(dest)`
  have hdabs : isAbs d = true ∧ clean d = clean dest := by
    subst hd
    split_ifs
    · rw [clean_clean, clean_eq_render_parse, render_of_rooted ((parse_rooted dest).trans hdest)]
      exact ⟨rfl, rfl⟩
    · exact ⟨hdest, rfl⟩
  obtain ⟨r₀, hrel⟩ := (rel_isOk_iff root d).2 ⟨hroot.trans hdabs.1.symm, hups ▸ Nat.zero_le _⟩
  refine ⟨_, by rw [invokeUnpack, resolvePathInChroot_of_rel hne hrel]; rfl, ?_⟩
  rw [join_resolved hne, join_rel hrel, hdabs.2]

/-- Inside the chroot at `root`, `UntarWithRoot` extracts into `Clean(dest)`, and `Tar`
packs `Clean(srcPath)`, exactly when that path lies within `root`: any other path they
accept they take to a different directory within `root`, and never to one outside. -/
theorem untarWithRoot_tar_target_eq_iff (root : List Char) :
    (∀ host archiveNil dest options call,
      untarWithRoot host archiveNil dest options root = .ok call →
        WithinRoot root (join [root, clean call.relDest]) ∧
          (join [root, clean call.relDest] = clean dest ↔ WithinRoot root dest)) ∧
      ∀ srcPath options call, tar srcPath options root = .ok call →
        WithinRoot root (join [root, clean call.relSrc]) ∧
          (join [root, clean call.relSrc] = clean srcPath ↔ WithinRoot root srcPath) := by
  refine ⟨fun host archiveNil dest options call h => ?_, fun srcPath options call h => ?_⟩
  · -- `untarHandler` resolves `dest`, cleaned when it is the root
    obtain ⟨opts, h⟩ := untarHandler_eq_ok h
    obtain ⟨r, hr, rfl⟩ := invokeUnpack_eq_ok.1 h
    have hdc : clean (if dest = root then clean dest else dest) = clean dest := by
      split_ifs <;> simp [clean_clean]
    obtain ⟨hin, hiff⟩ := resolvePathInChroot_target hr
    exact ⟨hin, by rw [← hdc, hiff, ← withinRoot_clean_iff, hdc, withinRoot_clean_iff]⟩
  · -- `invokePack` resolves `srcPath` and may put back a trailing separator
    obtain ⟨r, hr, rfl⟩ := invokePack_eq_ok.1 h
    have hne : r ≠ [] := by
      rintro rfl
      cases (resolvePathInChroot_eq_ok_isAbs hr).2
    have hcl : clean (if hasSuffix srcPath ['/'] ∧ ¬hasSuffix r ['/'] then r ++ ['/'] else r) =
        clean r := by
      split_ifs
      · exact clean_append_sep hne
      · rfl
    rw [hcl]
    exact resolvePathInChroot_target hr

/-- Resolving the host path of a chroot path gives the chroot path back: for every root and
every path `r` made of `/` and names, `resolvePathInChroot(root, Join(root, r))` is `r`.
With `join_resolvePathInChroot`, resolving and joining are inverse on the paths within the
root. -/
theorem resolvePathInChroot_join_sep {root : List Char} (hroot : root ≠ [])
    {ns : List (List Char)} (hns : ∀ e ∈ ns, IsName e) :
    resolvePathInChroot root (join [root, '/' :: ['/'].intercalate ns]) =
      .ok ('/' :: ['/'].intercalate ns) := by
  have hjoin : ∀ x, clean (join [root, x]) = join [root, x] := fun x => by
    rw [join, if_neg hroot, clean_clean]
  rcases eq_or_ne ns [] with rfl | hne
  · exact resolvePathInChroot_of_clean_eq hroot (by rw [hjoin, intercalate_nil, join_sep hroot])
  · obtain ⟨hclean, habs, hdot, hfirst⟩ := clean_intercalate hns hne
    exact resolvePathInChroot_of_liesBeneath hroot
      ⟨hclean, habs, hdot, hfirst, by rw [hjoin, join_sep_intercalate hroot hns hne]⟩

theorem resolvePathInChroot_join_sep_ab :
    resolvePathInChroot ['/', 'a'] (join [['/', 'a'], ['/', 'b']]) = .ok ['/', 'b'] :=
  @resolvePathInChroot_join_sep ['/', 'a'] (by decide) [['b']] (by simp [IsName])

/-- Chrooted to `/a/b`, `UntarWithRoot` and `Tar` take the sibling `/a/c` to `/../c`, which
inside the chroot is `/a/b/c`: a directory within the root, but not `Clean(/a/c)`, as `/a/c`
does not lie within `/a/b`. -/
theorem untarWithRoot_tar_target_eq_iff_sibling :
    untarWithRoot ⟨fun _ => false, fun _ _ _ => none, none⟩ false ['/', 'a', '/', 'c'] none
        ['/', 'a', '/', 'b'] =
      .ok ⟨true, ['/', '.', '.', '/', 'c'], ['/', 'a', '/', 'b'], { excludePatterns := some [] }⟩ ∧
      tar ['/', 'a', '/', 'c'] none ['/', 'a', '/', 'b'] =
        .ok ⟨['/', '.', '.', '/', 'c'], ['/', 'a', '/', 'b'], {}⟩ ∧
      WithinRoot ['/', 'a', '/', 'b'] (join [['/', 'a', '/', 'b'], clean ['/', '.', '.', '/', 'c']]) ∧
      join [['/', 'a', '/', 'b'], clean ['/', '.', '.', '/', 'c']] ≠ clean ['/', 'a', '/', 'c'] ∧
      ¬WithinRoot ['/', 'a', '/', 'b'] ['/', 'a', '/', 'c'] := by
  have hb : clean ['/', 'a', '/', 'b'] = ['/', 'a', '/', 'b'] := by decide
  have hc : clean ['/', 'a', '/', 'c'] = ['/', 'a', '/', 'c'] := by decide
  have hres : resolvePathInChroot ['/', 'a', '/', 'b'] ['/', 'a', '/', 'c'] =
      .ok ['/', '.', '.', '/', 'c'] := by
    simp [resolvePathInChroot, rel, hb, hc, relLoop_eq, elemAt, afterElem, relResult, isAbs]
  have hu : untarWithRoot ⟨fun _ => false, fun _ _ _ => none, none⟩ false ['/', 'a', '/', 'c']
      none ['/', 'a', '/', 'b'] =
      .ok ⟨true, ['/', '.', '.', '/', 'c'], ['/', 'a', '/', 'b'], { excludePatterns := some [] }⟩ := by
    simp [untarWithRoot, untarHandler, invokeUnpack, hres]
  have ht : tar ['/', 'a', '/', 'c'] none ['/', 'a', '/', 'b'] =
      .ok ⟨['/', '.', '.', '/', 'c'], ['/', 'a', '/', 'b'], {}⟩ := by
    simp [tar, invokePack, hres, show hasSuffix ['/', 'a', '/', 'c'] ['/'] = false from rfl]
  have hne : join [['/', 'a', '/', 'b'], clean ['/', '.', '.', '/', 'c']] ≠
      clean ['/', 'a', '/', 'c'] := by decide
  exact ⟨hu, ht, ((untarWithRoot_tar_target_eq_iff _).1 _ _ _ _ _ hu).1, hne,
    fun hw => hne (((untarWithRoot_tar_target_eq_iff _).2 _ _ _ ht).2.2 hw)⟩

/-- Chrooted to `/a/b`, `UntarWithRoot` takes the sibling `/a/c` as its `dest`. -/
theorem untarWithRoot_isAbs_eq_ok_sibling :
    ∃ relDest, untarWithRoot ⟨fun _ => false, fun _ _ _ => none, none⟩ false
        ['/', 'a', '/', 'c'] none ['/', 'a', '/', 'b'] =
        .ok ⟨true, relDest, ['/', 'a', '/', 'b'], { excludePatterns := some [] }⟩ ∧
      join [['/', 'a', '/', 'b'], relDest] = clean ['/', 'a', '/', 'c'] :=
  untarWithRoot_isAbs_eq_ok rfl rfl (fun h => absurd h (by decide)) rfl

end Results

end GoArchive.ChrootArchive
