import GoArchive.Filepath.Lexical

/-!
# `filepath.Rel` and `filepath.Join`

Go's `filepath.Rel` on Unix cleans both paths, answers `.` when they are equal, refuses a
pair of which one is rooted and the other is not, and then walks the two paths element
by element to the first elements that differ. What is left of the base becomes a run of
`..`; what is left of the target follows them.

The walk is `relLoop`, over the suffixes `base[b0:]` and `targ[t0:]` that Go tracks by
index. When both are used up at once the elements still compare equal and neither index
moves, so Go's `for` never exits; the model returns `none` there. `rel` calls it on two
clean paths that differ, and `rel_ne_hang` shows that this never happens.

On paths written as elements joined by separators, as clean paths are, the walk is the
walk over the lists of elements, `relElems` (`relLoop_intercalate`); the results about
`Rel` are proved there, on the readings of `Filepath.Lexical`.

## Main definitions

* `Filepath.relLoop` — the element-matching loop of `Rel`
* `Filepath.relElems` — the same loop over lists of elements
* `Filepath.rel` — `filepath.Rel`
* `Filepath.join` — `filepath.Join`

## Main results

* `rel_ne_nil` — a relative path returned without error is never empty
* `rel_of_beneath` — below the base, `Rel` returns the path below it
* `rel_ne_hang` — `Rel` always returns
* `rel_isOk_iff` — the pairs of paths `Rel` refuses
* `join_rel` — the contract Go documents: `Join(basepath, Rel(basepath, targpath))` is
  `Clean(targpath)`
-/

namespace GoArchive.Filepath

/-- The loop of `Rel` from `base[b0:]` and `targ[t0:]`: at the first elements that differ it
stops with `(base[b0:bi], base[b0:], targ[t0:])`; `none` when it never exits. -/
def relLoop (bs ts : List Char) : Option (List Char × List Char × List Char) :=
  if h : bs = [] ∧ ts = [] then none
  else if elemAt ts ≠ elemAt bs then some (elemAt bs, bs, ts)
  else relLoop (afterElem bs) (afterElem ts)
termination_by bs.length + ts.length
decreasing_by
  have := length_afterElem_le bs
  have := length_afterElem_le ts
  by_cases hb : bs = []
  · have := length_afterElem_lt (fun ht => h ⟨hb, ht⟩ : ts ≠ [])
    omega
  · have := length_afterElem_lt hb
    omega

/-- The loop of `Rel` read on elements: past the elements the two paths share, what is left
of each; `none` when nothing differs. -/
def relElems : List (List Char) → List (List Char) → Option (List (List Char) × List (List Char))
  | [], [] => none
  | [], f :: fs => some ([], f :: fs)
  | e :: es, [] => some (e :: es, [])
  | e :: es, f :: fs => if f = e then relElems es fs else some (e :: es, f :: fs)

/-! ## The loop -/

section Loop

variable {bs ts : List Char}

theorem relLoop_eq (bs ts : List Char) : relLoop bs ts =
    if bs = [] ∧ ts = [] then none
    else if elemAt ts ≠ elemAt bs then some (elemAt bs, bs, ts)
    else relLoop (afterElem bs) (afterElem ts) := by
  rw [relLoop]
  simp only [dite_eq_ite]

theorem relLoop_nil_left (h : elemAt ts ≠ []) : relLoop [] ts = some ([], [], ts) := by
  rw [relLoop_eq, if_neg (fun h' => h (by simp [h'.2])), if_pos (by simpa using h)]
  rfl

/-- Below the base, the loop walks past all of the base's elements. -/
theorem relLoop_append_sep :
    ∀ (bs ts s : List Char), ts = bs ++ '/' :: s → relLoop bs ts = relLoop [] s := by
  intro bs ts
  induction bs, ts using relLoop.induct with
  | case1 bs ts hnil =>
    intro s hts
    simp [hts] at hnil
  | case2 bs ts hnil hne =>
    intro s hts
    exact absurd (by rw [hts, elemAt_append_sep_cons]) hne
  | case3 bs ts hnil heq ih =>
    intro s hts
    rw [relLoop_eq bs, if_neg hnil, if_neg heq]
    by_cases hb : '/' ∈ bs
    · exact ih s (by rw [hts, afterElem_append_sep_cons, if_pos hb])
    · rw [hts, afterElem_append_sep_cons, if_neg hb, afterElem_of_sep_not_mem hb]

theorem elemAt_intercalate_cons {e : List Char} (he : '/' ∉ e) (l : List (List Char)) :
    elemAt (['/'].intercalate (e :: l)) = e := by
  rcases l with _ | ⟨f, l⟩
  · simpa using elemAt_of_sep_not_mem he
  · rw [intercalate_cons_cons, elemAt_append_sep he]

theorem afterElem_intercalate_cons {e : List Char} (he : '/' ∉ e) (l : List (List Char)) :
    afterElem (['/'].intercalate (e :: l)) = ['/'].intercalate l := by
  rcases l with _ | ⟨f, l⟩
  · simpa using afterElem_of_sep_not_mem he
  · rw [intercalate_cons_cons, afterElem_append_sep he]

theorem relElems_eq_none : ∀ {es fs : List (List Char)}, relElems es fs = none → es = fs
  | [], [], _ => rfl
  | [], _ :: _, h | _ :: _, [], h => by simp [relElems] at h
  | e :: es, f :: fs, h => by
    unfold relElems at h
    split_ifs at h with hef
    rw [hef, relElems_eq_none h]

/-- The loop on elements stops past a shared prefix, at the first elements that differ. -/
theorem relElems_eq_some : ∀ {es fs es' fs' : List (List Char)},
    relElems es fs = some (es', fs') → ∃ cs, es = cs ++ es' ∧ fs = cs ++ fs' ∧ es'.head? ≠ fs'.head?
  | [], [], _, _, h => by simp [relElems] at h
  | [], _ :: _, _, _, h | _ :: _, [], _, _, h => by
    simp only [relElems, Option.some.injEq, Prod.mk.injEq] at h
    exact ⟨[], by simp [h.1], by simp [h.2], by simp [← h.1, ← h.2]⟩
  | e :: es, f :: fs, _, _, h => by
    unfold relElems at h
    split_ifs at h with hef
    · obtain ⟨cs, rfl, rfl, hne⟩ := relElems_eq_some h
      exact ⟨e :: cs, rfl, by rw [hef]; rfl, hne⟩
    · simp only [Option.some.injEq, Prod.mk.injEq] at h
      exact ⟨[], by simp [h.1], by simp [h.2], by simp [← h.1, ← h.2, Ne.symm hef]⟩

/-- On two lists that lead with `a` and `b` copies of `d` and hold no `d` after them, the
loop on elements stops at a `d` of the first exactly when `b < a`. -/
theorem head_relElems_replicate {d : List Char} {xs ys es fs : List (List Char)}
    (hx : ∀ x ∈ xs, x ≠ d) (hy : ∀ y ∈ ys, y ≠ d) : ∀ a b : Nat,
    relElems (List.replicate a d ++ xs) (List.replicate b d ++ ys) = some (es, fs) →
      (es.head? = some d ↔ b < a)
  | 0, b, h => by
    obtain ⟨cs, hxs, -, -⟩ := relElems_eq_some h
    refine ⟨fun hd => ?_, fun hb => absurd hb (Nat.not_lt_zero b)⟩
    obtain ⟨es', rfl⟩ := List.head?_eq_some_iff.1 hd
    rw [List.replicate_zero, List.nil_append] at hxs
    exact absurd rfl (hx d (by simp [hxs]))
  | a + 1, 0, h => by
    rcases ys with _ | ⟨y, ys⟩
    · simp only [List.replicate_succ, List.cons_append, List.replicate_zero, List.append_nil,
        relElems, Option.some.injEq, Prod.mk.injEq] at h
      simp [← h.1]
    · have hyd := hy y (List.mem_cons_self y ys)
      simp only [List.replicate_succ, List.cons_append, List.replicate_zero, List.nil_append,
        relElems, if_neg hyd, Option.some.injEq, Prod.mk.injEq] at h
      simp [← h.1]
  | a + 1, b + 1, h => by
    simp only [List.replicate_succ, List.cons_append, relElems, if_pos rfl] at h
    rw [head_relElems_replicate hx hy a b h]
    omega

theorem relLoop_sep_cons_sep_cons (bs ts : List Char) :
    relLoop ('/' :: bs) ('/' :: ts) = relLoop bs ts := by
  rw [relLoop_eq]
  simp

/-- On joined elements the loop of `Rel` is the loop on elements. -/
theorem relLoop_intercalate : ∀ {es fs : List (List Char)},
    (∀ e ∈ es, e ≠ [] ∧ '/' ∉ e) → (∀ f ∈ fs, f ≠ [] ∧ '/' ∉ f) →
      relLoop (['/'].intercalate es) (['/'].intercalate fs) =
        (relElems es fs).map fun p =>
          (p.1.head?.getD [], ['/'].intercalate p.1, ['/'].intercalate p.2)
  | [], [], _, _ => by rw [relLoop_eq, if_pos ⟨rfl, rfl⟩]; rfl
  | [], f :: fs, _, hf => by
    have hff := hf f (by simp)
    rw [intercalate_nil, relLoop_nil_left (by rw [elemAt_intercalate_cons hff.2]; exact hff.1)]
    rfl
  | e :: es, [], he, _ => by
    have hee := he e (by simp)
    rw [relLoop_eq, if_neg (by simp [intercalate_eq_nil (fun x hx => (he x hx).1)]),
      if_pos (by rw [intercalate_nil, elemAt_nil, elemAt_intercalate_cons hee.2]; exact hee.1.symm),
      elemAt_intercalate_cons hee.2]
    rfl
  | e :: es, f :: fs, he, hf => by
    have hee := (he e (by simp)).2
    have hff := (hf f (by simp)).2
    rw [relLoop_eq, if_neg (by simp [intercalate_eq_nil (fun x hx => (he x hx).1)]),
      elemAt_intercalate_cons hee, elemAt_intercalate_cons hff, afterElem_intercalate_cons hee,
      afterElem_intercalate_cons hff]
    by_cases hef : f = e
    · rw [if_neg (not_not.2 hef), relLoop_intercalate (fun x hx => he x (by simp [hx]))
        (fun x hx => hf x (by simp [hx]))]
      simp [relElems, hef]
    · rw [if_pos hef]
      simp [relElems, hef]

/-- The same, for two paths at the same root. -/
theorem relLoop_root_intercalate (rooted : Bool) {es fs : List (List Char)}
    (hes : ∀ e ∈ es, e ≠ [] ∧ '/' ∉ e) (hfs : ∀ f ∈ fs, f ≠ [] ∧ '/' ∉ f) :
    relLoop ((if rooted then ['/'] else []) ++ ['/'].intercalate es)
        ((if rooted then ['/'] else []) ++ ['/'].intercalate fs) =
      (relElems es fs).map fun p =>
        (p.1.head?.getD [], ['/'].intercalate p.1, ['/'].intercalate p.2) := by
  cases rooted
  · exact relLoop_intercalate hes hfs
  · rw [if_pos rfl, List.singleton_append, List.singleton_append, relLoop_sep_cons_sep_cons]
    exact relLoop_intercalate hes hfs

end Loop

/-- The error `Rel` returns when no relative path exists. -/
def relError (basepath targpath : List Char) : String :=
  "Rel: can\x27t make " ++ String.mk targpath ++ " relative to " ++ String.mk basepath

/-- What `Rel` returns once its loop has stopped at `(base[b0:bi], base[b0:], targ[t0:])`:
a `..` for every element left in the base, then what is left of the target. -/
def relResult (err : String) (bseg bs ts : List Char) : Outcome (List Char) :=
  if bseg = ['.', '.'] then .error err
  else if bs ≠ [] then
    .ok (['.', '.'] ++ (List.replicate (bs.count '/') ['/', '.', '.']).flatten ++
      (if ts ≠ [] then '/' :: ts else []))
  else .ok ts

/-- Go's `filepath.Rel` on Unix. -/
def rel (basepath targpath : List Char) : Outcome (List Char) :=
  let base := clean basepath
  let targ := clean targpath
  if targ = base then .ok ['.'] else
  let base := if base = ['.'] then [] else base
  if isAbs base ≠ isAbs targ then .error (relError basepath targpath) else
  match relLoop base targ with
  | none => .hang
  | some (bseg, bs, ts) => relResult (relError basepath targpath) bseg bs ts

/-! ## What `Rel` returns -/

section Rel

variable {basepath targpath r : List Char}

theorem rel_of_clean_eq (h : clean targpath = clean basepath) :
    rel basepath targpath = .ok ['.'] := by
  simp [rel, h]

theorem relResult_ne_hang (err : String) (bseg bs ts : List Char) :
    relResult err bseg bs ts ≠ .hang := by
  unfold relResult
  split_ifs <;> simp

theorem relResult_ne_panic (err : String) (bseg bs ts : List Char) (msg : String) :
    relResult err bseg bs ts ≠ .panic msg := by
  unfold relResult
  split_ifs <;> simp

/-- `Rel` has no run-time panic. -/
theorem rel_ne_panic (basepath targpath : List Char) (msg : String) :
    rel basepath targpath ≠ .panic msg := by
  unfold rel
  dsimp only
  split_ifs
  any_goals simp
  all_goals split
  all_goals first | simp | exact relResult_ne_panic _ _ _ _ _

/-- Below the base, `Rel` returns the path below it. -/
theorem rel_of_beneath {s : List Char} (hs : elemAt s ≠ [])
    (h : clean targpath = beneath (clean basepath) s) : rel basepath targpath = .ok s := by
  have hsne : s ≠ [] := by rintro rfl; exact hs rfl
  have hstop : relResult (relError basepath targpath) [] [] s = .ok s := by
    simp [relResult]
  have hloop := relLoop_nil_left hs
  have habs := isAbs_eq_false_of_elemAt_ne_nil hs
  have hR := clean_ne_nil basepath
  unfold rel
  dsimp only
  rw [h]
  generalize clean basepath = R at hR ⊢
  unfold beneath
  by_cases h₁ : R = ['/']
  · subst h₁
    have hsep : relLoop ['/'] ('/' :: s) = relLoop [] s := by
      simpa using relLoop_sep_cons_sep_cons [] s
    simp [hsne, isAbs, hsep, hloop, hstop]
  · by_cases h₂ : R = ['.']
    · subst h₂
      by_cases hdot : s = ['.']
      · simp [hdot]
      · simp [hdot, habs, hloop, hstop]
    · have hne : R ++ '/' :: s ≠ R := fun h => by simpa using congrArg List.length h
      simp only [if_neg h₁, if_neg h₂, if_neg hne, isAbs_append hR, ne_eq, not_true_eq_false,
        if_false, relLoop_append_sep R _ s rfl, hloop, hstop]

/-- `Rel` on paths that clean differently: at one root, its loop runs over the elements of
the base's reading and elements `fs` that read as the target. -/
theorem rel_of_clean_ne (hne : clean targpath ≠ clean basepath) :
    ∃ fs, (∀ f ∈ fs, f ≠ [] ∧ '/' ∉ f) ∧
      fs.foldl Lexical.push ⟨(parse targpath).rooted, 0, []⟩ = parse targpath ∧
      (fs = (parse targpath).elems ∨ fs = [['.']] ∧ (parse targpath).elems = []) ∧
      rel basepath targpath =
        if (parse basepath).rooted = (parse targpath).rooted then
          match relElems (parse basepath).elems fs with
          | none => .hang
          | some (es, fs') => relResult (relError basepath targpath) (es.head?.getD [])
              (['/'].intercalate es) (['/'].intercalate fs')
        else .error (relError basepath targpath) := by
  have hb := parse_valid basepath
  obtain ⟨fs, hfs, hfold, hcanon, hrender⟩ := render_eq_intercalate (parse_valid targpath)
  have habs : isAbs ((if (parse targpath).rooted then ['/'] else []) ++ ['/'].intercalate fs) =
      (parse targpath).rooted := by
    cases (parse targpath).rooted
    · simpa using isAbs_intercalate hfs
    · rfl
  refine ⟨fs, hfs, hfold, hcanon, ?_⟩
  unfold rel
  dsimp only
  rw [if_neg hne, clean_eq_render_parse basepath, render_buffer hb, clean_eq_render_parse targpath,
    hrender, isAbs_buffer hb, habs]
  by_cases hr : (parse basepath).rooted = (parse targpath).rooted
  · rw [if_neg (not_not.2 hr), if_pos hr, Lexical.buffer, hr,
      relLoop_root_intercalate _ (Lexical.elems_wf hb) hfs]
    rcases relElems (parse basepath).elems fs with _ | ⟨es, fs'⟩ <;> rfl
  · rw [if_pos hr, if_neg hr]

/-- `Rel` always returns: it runs its loop only on two clean paths that differ, and
there the loop stops at elements that differ. -/
theorem rel_ne_hang (basepath targpath : List Char) : rel basepath targpath ≠ .hang := by
  by_cases heq : clean targpath = clean basepath
  · simp [rel_of_clean_eq heq]
  obtain ⟨fs, -, hfold, -, hrel⟩ := rel_of_clean_ne heq
  rw [hrel]
  split_ifs with hr
  · rcases hes : relElems (parse basepath).elems fs with _ | ⟨es, fs'⟩
    · refine absurd ?_ heq
      rw [clean_eq_render_parse, clean_eq_render_parse, ← hfold, ← relElems_eq_none hes, ← hr,
        foldl_push_elems (parse_valid basepath)]
    · exact relResult_ne_hang _ _ _ _
  · simp

theorem count_sep_intercalate : ∀ {l : List (List Char)}, (∀ e ∈ l, '/' ∉ e) →
    (['/'].intercalate l).count '/' = l.length - 1
  | [], _ => rfl
  | [a], h => by simpa using List.count_eq_zero.2 (h a (by simp))
  | a :: b :: l, h => by
    rw [intercalate_cons_cons, List.count_append, List.count_cons_self,
      count_sep_intercalate (fun e he => h e (List.mem_cons_of_mem a he)),
      List.count_eq_zero.2 (h a (by simp))]
    simp

theorem dotDot_append_flatten (n : Nat) :
    ['.', '.'] ++ (List.replicate n ['/', '.', '.']).flatten =
      ['/'].intercalate (List.replicate (n + 1) ['.', '.']) := by
  induction n with
  | zero => rfl
  | succ n ih =>
    rw [List.replicate_succ, List.flatten_cons, List.replicate_succ, List.replicate_succ,
      intercalate_cons_cons, ← List.replicate_succ, ← ih]
    rfl

/-- What `Rel` returns once its loop stops with the elements `es` left of the base and `fs`
of the target: a `..` for each element of `es`, then `fs`; an error if `es` starts at `..`. -/
theorem relResult_eq_ok {err : String} {es fs : List (List Char)}
    (hes : ∀ e ∈ es, e ≠ [] ∧ '/' ∉ e) (hfs : ∀ f ∈ fs, f ≠ [] ∧ '/' ∉ f)
    (h : relResult err (es.head?.getD []) (['/'].intercalate es) (['/'].intercalate fs) = .ok r) :
    es.head? ≠ some ['.', '.'] ∧
      r = ['/'].intercalate (List.replicate es.length ['.', '.'] ++ fs) := by
  unfold relResult at h
  by_cases hdd : es.head?.getD [] = ['.', '.']
  · rw [if_pos hdd] at h
    cases h
  refine ⟨fun he => hdd (by rw [he]; rfl), ?_⟩
  rw [if_neg hdd] at h
  rcases es with _ | ⟨e, es⟩
  · simp only [intercalate_nil, ne_eq, not_true_eq_false, if_false, Outcome.ok.injEq] at h
    simp [h]
  · rw [if_pos (by simp [intercalate_eq_nil (fun x hx => (hes x hx).1)])] at h
    cases h
    rw [count_sep_intercalate (fun x hx => (hes x hx).2), dotDot_append_flatten, intercalate_append]
    simp only [ne_eq, intercalate_eq_nil (fun x hx => (hfs x hx).1), List.replicate_eq_nil_iff,
      List.length_cons, Nat.add_one_ne_zero, not_false_eq_true, true_and]
    split_ifs with hf <;> simp [hf]

/-- What `Rel` returns on paths that clean differently: past the elements `cs` that the
readings share, a `..` for each element `es` left of the base, none of which is `..`,
then the elements `fs` left of the target. -/
theorem rel_eq_ok_of_clean_ne (hne : clean targpath ≠ clean basepath)
    (h : rel basepath targpath = .ok r) :
    ∃ cs es fs : List (List Char), (parse basepath).elems = cs ++ es ∧
      es.head? ≠ some ['.', '.'] ∧
      (cs ++ fs).foldl Lexical.push ⟨(parse basepath).rooted, 0, []⟩ = parse targpath ∧
      (∀ e ∈ List.replicate es.length ['.', '.'] ++ fs, e ≠ [] ∧ '/' ∉ e) ∧
      (es ≠ [] ∨ fs ≠ []) ∧ r = ['/'].intercalate (List.replicate es.length ['.', '.'] ++ fs) := by
  obtain ⟨fs, hfs, hfold, -, hr⟩ := rel_of_clean_ne hne
  rw [hr] at h
  split_ifs at h with hroot
  rcases hrel : relElems (parse basepath).elems fs with _ | ⟨es, fs'⟩ <;> rw [hrel] at h
  · cases h
  obtain ⟨cs, hB, rfl, hhead⟩ := relElems_eq_some hrel
  have hnil : es ≠ [] ∨ fs' ≠ [] := by
    by_contra h'
    simp only [not_or, not_not] at h'
    simp [h'.1, h'.2] at hhead
  have hwf := Lexical.elems_wf (parse_valid basepath)
  rw [hB] at hwf
  have hfs' : ∀ f ∈ fs', f ≠ [] ∧ '/' ∉ f := fun f hf => hfs f (List.mem_append_right cs hf)
  obtain ⟨hdd, rfl⟩ := relResult_eq_ok (fun e he => hwf e (List.mem_append_right cs he)) hfs' h
  refine ⟨cs, es, fs', hB, hdd, hroot ▸ hfold, ?_, hnil, rfl⟩
  simp only [List.mem_append, List.mem_replicate]
  rintro e (⟨-, rfl⟩ | he)
  · decide
  · exact hfs' e he

theorem relResult_isOk (err : String) (bseg bs ts : List Char) :
    (∃ r, relResult err bseg bs ts = .ok r) ↔ bseg ≠ ['.', '.'] := by
  unfold relResult
  split_ifs <;> simp_all

/-- Where the loop of `Rel` stops on the elements of the base's reading and of the
target's, the base is at a `..` exactly when it leads with more `..` than the target. -/
theorem head_relElems_elems {B T : Lexical} {fs es fs' : List (List Char)} (hB : B.Valid)
    (hT : T.Valid) (hfs : fs = T.elems ∨ fs = [['.']] ∧ T.elems = [])
    (h : relElems B.elems fs = some (es, fs')) : es.head? = some ['.', '.'] ↔ T.ups < B.ups := by
  have hx : ∀ x ∈ B.names.reverse, x ≠ ['.', '.'] := fun x hx =>
    (hB.names_isName x (List.mem_reverse.1 hx)).2.2.1
  rcases hfs with rfl | ⟨rfl, hT₀⟩
  · exact head_relElems_replicate hx
      (fun y hy => (hT.names_isName y (List.mem_reverse.1 hy)).2.2.1) _ _ h
  · rw [(List.replicate_eq_nil_iff _).1 (List.append_eq_nil.1 hT₀).1]
    exact @head_relElems_replicate ['.', '.'] B.names.reverse [['.']] es fs' hx (by decide)
      B.ups 0 h

/-- `Rel` returns a path exactly when both paths are rooted or neither is, and the cleaned
target leads with at least as many `..` as the cleaned base: only then does a run of `..`
followed by names lead from the base to the target. -/
theorem rel_isOk_iff (basepath targpath : List Char) :
    (∃ r, rel basepath targpath = .ok r) ↔
      isAbs basepath = isAbs targpath ∧ (parse basepath).ups ≤ (parse targpath).ups := by
  by_cases heq : clean targpath = clean basepath
  · have hp : parse targpath = parse basepath := by
      rw [← parse_render (parse_valid targpath), ← clean_eq_render_parse, heq,
        clean_eq_render_parse, parse_render (parse_valid basepath)]
    rw [← parse_rooted, ← parse_rooted, hp]
    simp [rel_of_clean_eq heq]
  obtain ⟨fs, -, -, hfs, hrel⟩ := rel_of_clean_ne heq
  simp only [parse_rooted] at hrel
  rw [hrel]
  split_ifs with hr
  · rcases hes : relElems (parse basepath).elems fs with _ | ⟨es, fs'⟩
    · exact absurd (hrel.trans (by rw [if_pos hr, hes])) (rel_ne_hang _ _)
    · dsimp only
      rw [relResult_isOk, ← not_lt,
        ← head_relElems_elems (parse_valid basepath) (parse_valid targpath) hfs hes]
      rcases es with _ | ⟨e, es⟩ <;> simp [hr]
  · simp [hr]

/-- A path returned by `Rel` without error is never empty. -/
theorem rel_ne_nil (h : rel basepath targpath = .ok r) : r ≠ [] := by
  by_cases heq : clean targpath = clean basepath
  · rw [rel_of_clean_eq heq] at h
    cases h
    simp
  obtain ⟨-, es, fs, -, -, -, hwf, hnil, rfl⟩ := rel_eq_ok_of_clean_ne heq h
  rw [Ne, intercalate_eq_nil fun e he => (hwf e he).1, List.append_eq_nil,
    List.replicate_eq_nil_iff, List.length_eq_zero]
  tauto

end Rel

/-- Go's `filepath.Join` on Unix: the elements from the first non-empty one on, joined by
separators and cleaned. -/
def join : List (List Char) → List Char
  | [] => []
  | e :: es => if e = [] then join es else clean (['/'].intercalate (e :: es))

/-- Joined to a non-empty base, a path reads on from the base's reading. -/
theorem join_pair {basepath : List Char} (hb : basepath ≠ []) (x : List Char) :
    join [basepath, x] = (parseFrom (parse basepath) [] x).render := by
  rw [join, if_neg hb, intercalate_cons_cons, intercalate_singleton, clean_eq_render_parse,
    parse_append_sep hb]

/-- So does a relative path joined to any base. -/
theorem join_pair_of_isAbs_eq_false {basepath r : List Char} (hr : r ≠ [])
    (habs : isAbs r = false) : join [basepath, r] = (parseFrom (parse basepath) [] r).render := by
  by_cases hb : basepath = []
  · subst hb
    rw [join, if_pos rfl, join, if_neg hr, intercalate_singleton, clean_eq_render_parse, parse,
      habs]
    rfl
  · exact join_pair hb r

/-- The contract of Go's `filepath.Rel`: joined to the base, what it returns cleans to the
target. -/
theorem join_rel {basepath targpath r : List Char} (h : rel basepath targpath = .ok r) :
    join [basepath, r] = clean targpath := by
  have hb := parse_valid basepath
  have hrne := rel_ne_nil h
  by_cases heq : clean targpath = clean basepath
  · rw [rel_of_clean_eq heq] at h
    cases h
    rw [join_pair_of_isAbs_eq_false hrne rfl, parseFrom_of_sep_not_mem _ _ (by decide), heq,
      clean_eq_render_parse]
    simp
  obtain ⟨cs, es, fs, hB, hdd, hfold, hwf, -, rfl⟩ := rel_eq_ok_of_clean_ne heq h
  have hnames := isName_of_elems_eq_append hb hB hdd
  -- the `..`s take back the elements of `es`, and the rest of the target follows
  have hup : (List.replicate es.length ['.', '.']).foldl Lexical.push (parse basepath) =
      cs.foldl Lexical.push ⟨(parse basepath).rooted, 0, []⟩ := by
    conv_lhs => rw [← foldl_push_elems hb, hB, List.foldl_append, foldl_push_names _ hnames,
      ← List.length_reverse es, foldl_push_dotDot_names]
  rw [join_pair_of_isAbs_eq_false hrne (isAbs_intercalate hwf),
    parseFrom_intercalate _ (fun e he => (hwf e he).2), List.foldl_append, hup,
    ← List.foldl_append, hfold, clean_eq_render_parse]

end GoArchive.Filepath
