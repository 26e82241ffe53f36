import GoArchive.Filepath.Clean

/-!
# What `Clean` computes

The rules of `filepath.Clean` are stated on elements: drop empty and `.` elements, let
`..` remove the name before it, keep a leading run of `..` in a relative path and drop it
at the root. `Lexical` is that reading of a path: whether it is rooted, how many `..`
lead it, and the names that follow. `parse` reads a path into it element by element and
`Lexical.render` writes it back.

`clean_eq_render_parse` connects the byte loop of `Clean.lean` to this reading: the
buffer of `cleanLoop` is at every step the text of the elements read so far, and a `..`
backs up over exactly one name. Everything later about `Clean` is derived from the
equation, never from the loop.

## Main definitions

* `Filepath.Lexical` — a path as rooted flag, leading `..` count and names
* `Filepath.parse` — the elements of a path, pushed one by one
* `Lexical.render` — the cleaned text of a reading

## Main results

* `parse_render` — reading a cleaned text gives back the reading it came from
* `clean_eq_render_parse` — `Clean` is `render ∘ parse`
* `clean_clean` — `Clean` is idempotent
-/

namespace GoArchive.Filepath

/-- An element that names a directory entry, kept by `Clean` as it is: not empty, not
`.` or `..`, and free of separators. -/
def IsName (e : List Char) : Prop := e ≠ [] ∧ e ≠ ['.'] ∧ e ≠ ['.', '.'] ∧ '/' ∉ e

/-- Go's `filepath.IsAbs` on Unix: the path starts at the root. -/
def isAbs : List Char → Bool
  | '/' :: _ => true
  | _ => false

@[simp] theorem intercalate_nil : ['/'].intercalate ([] : List (List Char)) = [] := rfl

@[simp] theorem intercalate_cons_cons (a b : List Char) (l : List (List Char)) :
    ['/'].intercalate (a :: b :: l) = a ++ '/' :: ['/'].intercalate (b :: l) := by
  simp [List.intercalate, List.intersperse_cons_cons]

@[simp] theorem intercalate_singleton (a : List Char) : ['/'].intercalate [a] = a := by
  simp [List.intercalate]

theorem intercalate_append_singleton (l : List (List Char)) (e : List Char) :
    ['/'].intercalate (l ++ [e]) =
      ['/'].intercalate l ++ (if l = [] then [] else ['/']) ++ e := by
  induction l with
  | nil => simp
  | cons a l ih => cases l <;> simp_all

theorem intercalate_eq_nil {l : List (List Char)} (h : ∀ e ∈ l, e ≠ []) :
    ['/'].intercalate l = [] ↔ l = [] := by
  rcases l with _ | ⟨a, _ | ⟨b, l⟩⟩ <;> simp_all

theorem intercalate_append (l l' : List (List Char)) :
    ['/'].intercalate (l ++ l') =
      ['/'].intercalate l ++ (if l ≠ [] ∧ l' ≠ [] then ['/'] else []) ++ ['/'].intercalate l' := by
  induction l with
  | nil => simp
  | cons a l ih =>
    rcases l with _ | ⟨b, l⟩
    · rcases l' with _ | ⟨b', l'⟩ <;> simp
    · simp_all

/-- What `Clean` keeps of a path: whether it is rooted, how many `..` elements lead it,
and the names after them, last first. -/
structure Lexical where
  rooted : Bool
  ups : Nat
  names : List (List Char)
  deriving DecidableEq, Repr

namespace Lexical

/-- Read one element: empty and `.` elements change nothing, `..` removes the last name
or, with none left, leads a relative path; a rooted path stays at its root. -/
def push (p : Lexical) (e : List Char) : Lexical :=
  if e = [] ∨ e = ['.'] then p
  else if e = ['.', '.'] then
    match p.names with
    | _ :: names => { p with names := names }
    | [] => if p.rooted then p else { p with ups := p.ups + 1 }
  else { p with names := e :: p.names }

/-- The elements of the cleaned path, first to last. -/
def elems (p : Lexical) : List (List Char) :=
  List.replicate p.ups ['.', '.'] ++ p.names.reverse

/-- The bytes `Clean` writes for `p`, before it turns an empty result into `.`. -/
def buffer (p : Lexical) : List Char :=
  (if p.rooted then ['/'] else []) ++ ['/'].intercalate p.elems

/-- Where a `..` stops backing up in `buffer`: after the root, or after the `..` that
lead a relative path. -/
def dotdot (p : Lexical) : Nat :=
  if p.rooted then 1 else (['/'].intercalate (List.replicate p.ups ['.', '.'])).length

/-- The text of the cleaned path. -/
def render (p : Lexical) : List Char :=
  if p.buffer = [] then ['.'] else p.buffer

/-- A reading that `Clean` can produce: names only after the leading `..`, and no `..`
at the root. -/
structure Valid (p : Lexical) : Prop where
  names_isName : ∀ e ∈ p.names, IsName e
  ups_of_rooted : p.rooted = true → p.ups = 0

variable {p : Lexical} {e : List Char}

@[simp] theorem push_nil (p : Lexical) : p.push [] = p := by simp [push]

@[simp] theorem push_dot (p : Lexical) : p.push ['.'] = p := by simp [push]

theorem push_name (h : IsName e) : p.push e = { p with names := e :: p.names } := by
  simp [push, h.1, h.2.1, h.2.2.1]

theorem push_dotDot_cons {n : List Char} {ns : List (List Char)} (h : p.names = n :: ns) :
    p.push ['.', '.'] = { p with names := ns } := by
  simp [push, h]

theorem push_dotDot_nil (h : p.names = []) :
    p.push ['.', '.'] = if p.rooted then p else { p with ups := p.ups + 1 } := by
  simp [push, h]

theorem elems_ne_nil_of_mem (hp : p.Valid) : ∀ x ∈ p.elems, x ≠ [] := by
  intro x hx
  rcases List.mem_append.1 hx with hx | hx
  · simp [(List.mem_replicate.1 hx).2]
  · exact (hp.names_isName x (List.mem_reverse.1 hx)).1

/-- The elements of a valid reading are non-empty and free of separators. -/
theorem elems_wf (hp : p.Valid) : ∀ x ∈ p.elems, x ≠ [] ∧ '/' ∉ x := fun x hx =>
  ⟨elems_ne_nil_of_mem hp x hx, by
    rcases List.mem_append.1 hx with hx | hx
    · simp [(List.mem_replicate.1 hx).2]
    · exact (hp.names_isName x (List.mem_reverse.1 hx)).2.2.2⟩

theorem dot_not_mem_elems (hp : p.Valid) : ['.'] ∉ p.elems := by
  intro hx
  rcases List.mem_append.1 hx with hx | hx
  · simp at hx
  · exact (hp.names_isName _ (List.mem_reverse.1 hx)).2.1 rfl

theorem push_valid (hp : p.Valid) (he : '/' ∉ e) : (p.push e).Valid := by
  by_cases h₁ : e = [] ∨ e = ['.']
  · rcases h₁ with rfl | rfl <;> simpa
  by_cases h₂ : e = ['.', '.']
  · subst h₂
    rcases hn : p.names with _ | ⟨n, ns⟩
    · rw [push_dotDot_nil hn]
      split
      · exact hp
      · exact ⟨by simp [hn], by simp_all⟩
    · rw [push_dotDot_cons hn]
      exact ⟨fun x hx => hp.names_isName x (by simp [hn, hx]), hp.ups_of_rooted⟩
  · have hname : IsName e := ⟨fun h => h₁ (.inl h), fun h => h₁ (.inr h), h₂, he⟩
    rw [push_name hname]
    exact ⟨fun x hx => (List.mem_cons.1 hx).elim (· ▸ hname) (hp.names_isName x),
      hp.ups_of_rooted⟩

@[simp] theorem push_rooted (p : Lexical) (e : List Char) : (p.push e).rooted = p.rooted := by
  rcases p with ⟨r, u, _ | ⟨n, ns⟩⟩ <;> simp only [push] <;> split_ifs <;> rfl

theorem elems_push_name (h : IsName e) : (p.push e).elems = p.elems ++ [e] := by
  simp [push_name h, elems]

theorem length_intercalate_ups_le (p : Lexical) :
    (['/'].intercalate (List.replicate p.ups ['.', '.'])).length ≤
      (['/'].intercalate p.elems).length := by
  rw [elems, intercalate_append]; simp

theorem dotdot_le_length (p : Lexical) : p.dotdot ≤ p.buffer.length := by
  unfold dotdot buffer
  have := length_intercalate_ups_le p
  split <;> simp; omega

theorem dotdot_eq_length_of_names_nil (hp : p.Valid) (h : p.names = []) :
    p.dotdot = p.buffer.length := by
  unfold dotdot buffer elems
  cases hr : p.rooted
  · simp [h]
  · simp [h, hp.ups_of_rooted hr]

/-- Before a new element `Clean` writes a separator exactly when the buffer holds an
element already. -/
theorem sepIf_buffer (hp : p.Valid) :
    sepIf p.rooted p.buffer.reverse = (if p.elems = [] then [] else ['/']) ++ p.buffer.reverse := by
  have hnil := intercalate_eq_nil (elems_ne_nil_of_mem hp)
  unfold sepIf buffer
  by_cases he : p.elems = [] <;> cases p.rooted <;> simp_all [List.length_eq_zero]

/-- A name is appended to the buffer after a separator, if one is due. -/
theorem buffer_push_name (hp : p.Valid) (h : IsName e) :
    (p.push e).buffer.reverse = e.reverse ++ sepIf p.rooted p.buffer.reverse := by
  rw [sepIf_buffer hp]
  simp only [buffer, elems_push_name h, intercalate_append_singleton, push_rooted]
  by_cases he : p.elems = [] <;> simp [he]

theorem dotdot_push_name (h : IsName e) : (p.push e).dotdot = p.dotdot := by
  simp [push_name h, dotdot]

/-- A name backs up to the buffer it was appended to. -/
theorem backtrack_push_name (hp : p.Valid) (h : IsName e) :
    backtrack p.dotdot (p.push e).buffer.reverse = p.buffer.reverse := by
  have hw : '/' ∉ e.reverse := by simpa using h.2.2.2
  rw [buffer_push_name hp h, sepIf_buffer hp]
  by_cases he : p.elems = []
  · obtain ⟨w, y, hwy⟩ := (List.eq_nil_or_concat e.reverse).resolve_left (by simpa using h.1)
    rw [List.concat_eq_append] at hwy
    have hlen : p.dotdot = p.buffer.length :=
      dotdot_eq_length_of_names_nil hp (by simp [elems] at he; exact he.2)
    rw [if_pos he, hwy, List.nil_append, List.append_assoc, List.singleton_append,
      backtrack_append (fun hm => hw (hwy ▸ List.mem_append_left _ hm)) (by simp [hlen]),
      backtrack_cons_of_length_le _ (by simp [hlen])]
  · rw [if_neg he, List.singleton_append,
      backtrack_append hw (by simpa [Nat.lt_succ_iff] using dotdot_le_length p),
      backtrack_sep_cons]

/-- The `..` case of `Clean`'s `switch`, run on the buffer of `p`, leaves the buffer and
the `dotdot` mark of `p.push ".."`. -/
theorem dotDot_buffer (hp : p.Valid) :
    dotDot p.rooted p.buffer.reverse p.dotdot =
      ((p.push ['.', '.']).buffer.reverse, (p.push ['.', '.']).dotdot) := by
  rcases hn : p.names with _ | ⟨n, ns⟩
  · have hlen := dotdot_eq_length_of_names_nil hp hn
    rw [push_dotDot_nil hn]
    unfold dotDot
    rw [if_neg (by simp [hlen])]
    cases hr : p.rooted
    · simp only [buffer, elems, dotdot, hn, hr, List.reverse_nil, List.append_nil,
        List.nil_append, Bool.false_eq_true, if_false, List.replicate_succ',
        intercalate_append_singleton, List.length_reverse, List.reverse_append]
      by_cases hu : p.ups = 0
      · simp [hu]
      · have hpos : 0 < (['/'].intercalate (List.replicate p.ups ['.', '.'])).length :=
          List.length_pos.2 (by rw [Ne, intercalate_eq_nil (by simp)]; simpa using hu)
        simp [hu, hpos]
    · simp
  · have hname : IsName n := hp.names_isName n (by simp [hn])
    set q : Lexical := { p with names := ns } with hq
    have hqv : q.Valid := ⟨fun x hx => hp.names_isName x (by simp [hn, hx]), hp.ups_of_rooted⟩
    have hpq : p = q.push n := by rw [push_name hname]; cases p; simp_all [q]
    have hlt : p.dotdot < p.buffer.reverse.length := by
      rw [List.length_reverse, hpq, dotdot_push_name hname, ← List.length_reverse,
        buffer_push_name hqv hname, List.length_append, List.length_reverse]
      have := dotdot_le_length q
      have := List.length_pos.2 hname.1
      rw [sepIf_buffer hqv]; simp; omega
    rw [push_dotDot_cons hn, dotDot, if_pos hlt]
    conv_lhs => rw [hpq, dotdot_push_name hname, backtrack_push_name hqv hname]

end Lexical

/-- Read a path element by element; `cur` is the part of the current element read so
far. -/
def parseFrom (p : Lexical) (cur : List Char) : List Char → Lexical
  | [] => p.push cur
  | c :: rest => if c = '/' then parseFrom (p.push cur) [] rest else parseFrom p (cur ++ [c]) rest

/-- The reading of a path: its elements pushed one by one, from the empty reading. -/
def parse (path : List Char) : Lexical :=
  parseFrom ⟨isAbs path, 0, []⟩ [] path

section Parse

variable {p : Lexical} {cur rest : List Char}

@[simp] theorem parseFrom_nil : parseFrom p cur [] = p.push cur := rfl

@[simp] theorem parseFrom_sep_cons :
    parseFrom p cur ('/' :: rest) = parseFrom (p.push cur) [] rest := by
  simp [parseFrom]

theorem parseFrom_cons_of_ne {c : Char} (hc : c ≠ '/') :
    parseFrom p cur (c :: rest) = parseFrom p (cur ++ [c]) rest := by
  simp [parseFrom, hc]

/-- At the end of an element the element read so far is pushed. -/
theorem parseFrom_of_endsElem (h : endsElem rest = true) :
    parseFrom p cur rest = parseFrom (p.push cur) [] rest := by
  rcases rest with _ | ⟨c, rest⟩
  · simp
  · simp only [endsElem, beq_iff_eq] at h
    subst h
    simp

@[simp] theorem parseFrom_rooted : (parseFrom p cur rest).rooted = p.rooted := by
  induction rest generalizing p cur with
  | nil => simp
  | cons c rest ih => by_cases hc : c = '/' <;> simp [parseFrom, hc, ih]

/-- The reading of a path is rooted exactly when the path is absolute. -/
@[simp] theorem parse_rooted (path : List Char) : (parse path).rooted = isAbs path :=
  parseFrom_rooted

theorem parseFrom_valid (hp : p.Valid) (hcur : '/' ∉ cur) : (parseFrom p cur rest).Valid := by
  induction rest generalizing p cur with
  | nil => exact Lexical.push_valid hp hcur
  | cons c rest ih =>
    by_cases hc : c = '/'
    · subst hc
      exact ih (Lexical.push_valid hp hcur) (by simp)
    · rw [parseFrom_cons_of_ne hc]
      exact ih hp (by simp [hcur, Ne.symm hc])

theorem parse_valid (path : List Char) : (parse path).Valid :=
  parseFrom_valid ⟨by simp, by simp⟩ (by simp)

end Parse

/-! ## `Clean` is `render ∘ parse` -/

/-- The state of `cleanLoop` that stands for the reading `p` with `cur` of the current
element copied; an element being copied turns out to be a name. -/
def LoopState (p : Lexical) (cur rest : List Char) : Bool → List Char → Nat → Prop
  | false, out, dotdot => cur = [] ∧ out = p.buffer.reverse ∧ dotdot = p.dotdot
  | true, out, dotdot => IsName (cur ++ elemAt rest) ∧
      out = cur.reverse ++ sepIf p.rooted p.buffer.reverse ∧ dotdot = p.dotdot

theorem isName_dot_dot_append {l : List Char} (h : endsElem l = false) :
    IsName (['.', '.'] ++ elemAt l) := by
  rcases l with _ | ⟨c, l⟩
  · simp [endsElem] at h
  · have hc : c ≠ '/' := by simpa [endsElem] using h
    simp [IsName, elemAt_cons, hc, sep_not_mem_elemAt, Ne.symm hc]

theorem isName_dot_cons {l : List Char} (h : endsElem l = false)
    (hdot : ∀ r, l = '.' :: r → False) : IsName ('.' :: elemAt l) := by
  rcases l with _ | ⟨c, l⟩
  · simp [endsElem] at h
  · have hc : c ≠ '/' := by simpa [endsElem] using h
    have hc' : c ≠ '.' := fun h => hdot l (h ▸ rfl)
    simp [IsName, elemAt_cons, hc, hc', sep_not_mem_elemAt, Ne.symm hc]

theorem isName_cons {c : Char} (l : List Char) (hc : c ≠ '/') (hc' : c ≠ '.') :
    IsName (c :: elemAt l) := by
  simp [IsName, hc', sep_not_mem_elemAt, Ne.symm hc]

/-- The simulation: from a state that stands for `p` and `cur`, the loop ends with the
buffer of the reading of the rest of the path. -/
theorem cleanLoop_eq_parseFrom (rooted copying : Bool) (out : List Char) (dotdot : Nat)
    (rest : List Char) : ∀ p cur, p.Valid → p.rooted = rooted →
      LoopState p cur rest copying out dotdot →
      cleanLoop rooted copying out dotdot rest = (parseFrom p cur rest).buffer.reverse := by
  induction copying, out, dotdot, rest using cleanLoop.induct rooted with
  | case1 copying out dotdot =>
    intro p cur hp hr hs
    rw [cleanLoop.eq_1, parseFrom_nil]
    cases copying
    · obtain ⟨rfl, rfl, -⟩ := hs
      simp
    · obtain ⟨hname, rfl, -⟩ := hs
      rw [elemAt_nil, List.append_nil] at hname
      rw [Lexical.buffer_push_name hp hname, hr]
  | case2 out dotdot rest ih =>
    rintro p cur hp hr ⟨hname, hout, hdd⟩
    rw [elemAt_sep_cons, List.append_nil] at hname
    rw [cleanLoop.eq_2, if_pos rfl, parseFrom_sep_cons]
    exact ih _ [] (Lexical.push_valid hp hname.2.2.2) (by simp [hr])
      ⟨rfl, by rw [Lexical.buffer_push_name hp hname, hout],
        by rw [Lexical.dotdot_push_name hname, hdd]⟩
  | case3 out dotdot c rest hc ih =>
    rintro p cur hp hr ⟨hname, hout, hdd⟩
    rw [cleanLoop.eq_2, if_neg hc, parseFrom_cons_of_ne hc]
    exact ih p (cur ++ [c]) hp hr
      ⟨by simpa [elemAt_cons, hc] using hname, by simp [hout], hdd⟩
  | case4 out dotdot rest ih =>
    rintro p cur hp hr ⟨rfl, hout, hdd⟩
    rw [cleanLoop.eq_3, parseFrom_sep_cons, Lexical.push_nil]
    exact ih p [] hp hr ⟨rfl, hout, hdd⟩
  | case5 out dotdot rest hend next ih =>
    rintro p cur hp hr ⟨rfl, hout, hdd⟩
    have hnext : dotDot rooted out dotdot =
        ((p.push ['.', '.']).buffer.reverse, (p.push ['.', '.']).dotdot) := by
      rw [hout, hdd, ← hr, Lexical.dotDot_buffer hp]
    rw [cleanLoop.eq_4, if_pos hend, parseFrom_cons_of_ne (by decide),
      parseFrom_cons_of_ne (by decide), parseFrom_of_endsElem hend]
    simp only [next, hnext] at ih ⊢
    exact ih _ [] (Lexical.push_valid hp (by decide)) (by simp [hr]) ⟨rfl, rfl, rfl⟩
  | case6 out dotdot rest hend ih =>
    rintro p cur hp hr ⟨rfl, hout, hdd⟩
    rw [cleanLoop.eq_4, if_neg hend, parseFrom_cons_of_ne (by decide),
      parseFrom_cons_of_ne (by decide)]
    exact ih p ['.', '.'] hp hr ⟨isName_dot_dot_append (by simpa using hend),
      by simp [hout, hr], hdd⟩
  | case7 out dotdot rest hdot hend ih =>
    rintro p cur hp hr ⟨rfl, hout, hdd⟩
    rw [cleanLoop.eq_5 _ _ _ _ hdot, if_pos hend, parseFrom_cons_of_ne (by decide),
      parseFrom_of_endsElem hend, List.nil_append, Lexical.push_dot]
    exact ih p [] hp hr ⟨rfl, hout, hdd⟩
  | case8 out dotdot rest hdot hend ih =>
    rintro p cur hp hr ⟨rfl, hout, hdd⟩
    rw [cleanLoop.eq_5 _ _ _ _ hdot, if_neg hend, parseFrom_cons_of_ne (by decide)]
    exact ih p ['.'] hp hr ⟨isName_dot_cons (by simpa using hend) hdot,
      by simp [hout, hr], hdd⟩
  | case9 out dotdot c rest hc hdot hc' ih =>
    rintro p cur hp hr ⟨rfl, hout, hdd⟩
    rw [cleanLoop.eq_6 _ _ _ _ _ hc hdot hc', parseFrom_cons_of_ne hc]
    exact ih p [c] hp hr ⟨isName_cons rest hc hc', by simp [hout, hr], hdd⟩

theorem finish_reverse (b : List Char) :
    finish b.reverse = if b = [] then ['.'] else b := by
  by_cases h : b = [] <;> simp [finish, h]

/-- `Clean` writes the elements it reads, as `render ∘ parse` says. -/
theorem clean_eq_render_parse (path : List Char) : clean path = (parse path).render := by
  rcases path with _ | ⟨c, rest⟩
  · rfl
  · by_cases hc : c = '/'
    · subst hc
      have h := cleanLoop_eq_parseFrom true false ['/'] 1 rest ⟨true, 0, []⟩ []
        ⟨by simp, by simp⟩ rfl ⟨rfl, rfl, rfl⟩
      rw [clean.eq_2, h, finish_reverse, parse, parseFrom_sep_cons, Lexical.push_nil]
      rfl
    · have h := cleanLoop_eq_parseFrom false false [] 0 (c :: rest) ⟨false, 0, []⟩ []
        ⟨by simp, by simp⟩ rfl ⟨rfl, rfl, rfl⟩
      rw [clean.eq_3 _ (by simp) (by simpa using hc), h, finish_reverse]
      have : isAbs (c :: rest) = false := by simp [isAbs, hc]
      simp [parse, this, Lexical.render]

/-! ## Reading a cleaned path back -/

section Reading

variable {p : Lexical}

theorem parseFrom_append_sep (p : Lexical) (cur a b : List Char) :
    parseFrom p cur (a ++ '/' :: b) = parseFrom (parseFrom p cur a) [] b := by
  induction a generalizing p cur with
  | nil => simp
  | cons c a ih =>
    by_cases hc : c = '/'
    · subst hc
      simp [ih]
    · simp [parseFrom_cons_of_ne hc, ih]

theorem parseFrom_of_sep_not_mem (p : Lexical) (cur : List Char) {e : List Char} (h : '/' ∉ e) :
    parseFrom p cur e = p.push (cur ++ e) := by
  induction e generalizing cur with
  | nil => simp
  | cons c e ih =>
    simp only [List.mem_cons, not_or] at h
    rw [parseFrom_cons_of_ne (Ne.symm h.1), ih _ h.2]
    simp

/-- Reading joined elements pushes them one by one. -/
theorem parseFrom_intercalate (p : Lexical) {l : List (List Char)} (hl : ∀ e ∈ l, '/' ∉ e) :
    parseFrom p [] (['/'].intercalate l) = l.foldl Lexical.push p := by
  induction l generalizing p with
  | nil => simp
  | cons e l ih =>
    rcases l with _ | ⟨f, l⟩
    · simp [parseFrom_of_sep_not_mem p [] (hl e (by simp))]
    · rw [intercalate_cons_cons, parseFrom_append_sep,
        parseFrom_of_sep_not_mem p [] (hl e (by simp)),
        List.nil_append, ih _ (fun x hx => hl x (List.mem_cons_of_mem _ hx))]
      rfl

theorem foldl_push_names (p : Lexical) {l : List (List Char)} (h : ∀ e ∈ l, IsName e) :
    l.foldl Lexical.push p = { p with names := l.reverse ++ p.names } := by
  induction l generalizing p with
  | nil => rfl
  | cons e l ih =>
    rw [List.foldl_cons, Lexical.push_name (h e (by simp)),
      ih _ (fun x hx => h x (List.mem_cons_of_mem _ hx))]
    simp

theorem foldl_push_ups (p : Lexical) (n : Nat) (hr : p.rooted = false) (hn : p.names = []) :
    (List.replicate n ['.', '.']).foldl Lexical.push p = { p with ups := p.ups + n } := by
  induction n generalizing p with
  | zero => rfl
  | succ n ih =>
    rw [List.replicate_succ, List.foldl_cons, Lexical.push_dotDot_nil hn, if_neg (by simp [hr]),
      ih ⟨p.rooted, p.ups + 1, p.names⟩ hr hn]
    congr 1
    dsimp only
    omega

theorem isAbs_intercalate {l : List (List Char)} (h : ∀ e ∈ l, e ≠ [] ∧ '/' ∉ e) :
    isAbs (['/'].intercalate l) = false := by
  rcases l with _ | ⟨e, l⟩
  · rfl
  · obtain ⟨c, e', rfl⟩ := List.exists_cons_of_ne_nil (h e (by simp)).1
    have hc : c ≠ '/' := fun hc => (h (c :: e') (by simp)).2 (by simp [hc])
    rcases l with _ | ⟨f, l⟩ <;> simp [isAbs, hc]

/-- The elements of a valid reading, pushed from the empty reading at its root, give it
back. -/
theorem foldl_push_elems (hp : p.Valid) : p.elems.foldl Lexical.push ⟨p.rooted, 0, []⟩ = p := by
  have hnames : ∀ e ∈ p.names.reverse, IsName e := fun e he =>
    hp.names_isName e (List.mem_reverse.1 he)
  rw [Lexical.elems, List.foldl_append]
  rcases p with ⟨_ | _, u, ns⟩
  · rw [foldl_push_ups _ _ rfl rfl, foldl_push_names _ hnames]
    simp
  · obtain rfl : u = 0 := hp.ups_of_rooted rfl
    rw [List.replicate_zero, List.foldl_nil, foldl_push_names _ hnames]
    simp

/-- One `..` for each name pushed last takes them off again. -/
theorem foldl_push_dotDot_names (p : Lexical) (l : List (List Char)) :
    (List.replicate l.length ['.', '.']).foldl Lexical.push { p with names := l ++ p.names } =
      p := by
  induction l with
  | nil => rfl
  | cons n l ih =>
    rw [List.length_cons, List.replicate_succ, List.foldl_cons, List.cons_append,
      @Lexical.push_dotDot_cons { p with names := n :: (l ++ p.names) } n _ rfl]
    exact ih

/-- A cleaned text reads back as the reading it was written from. -/
theorem parse_render (hp : p.Valid) : parse p.render = p := by
  have helem := Lexical.elems_wf hp
  have hfold := foldl_push_elems hp
  have hread : parseFrom ⟨p.rooted, 0, []⟩ [] (['/'].intercalate p.elems) = p := by
    rw [parseFrom_intercalate _ (fun e he => (helem e he).2), hfold]
  unfold Lexical.render Lexical.buffer
  rcases hr : p.rooted
  · by_cases he : p.elems = []
    · have hu : p.ups = 0 ∧ p.names = [] := by simpa [Lexical.elems] using he
      rcases p with ⟨r, u, ns⟩
      simp only at hr hu
      rw [hr, hu.1, hu.2]
      rfl
    · have hne : ['/'].intercalate p.elems ≠ [] := by
        rwa [Ne, intercalate_eq_nil (fun e he => (helem e he).1)]
      rw [hr] at hread
      simpa only [Bool.false_eq_true, if_false, List.nil_append, if_neg hne, parse,
        isAbs_intercalate helem] using hread
  · rw [hr] at hread
    simpa only [if_true, List.singleton_append, parse, isAbs, reduceCtorEq, if_false,
      parseFrom_sep_cons, Lexical.push_nil] using hread

/-- `Clean` is idempotent. -/
theorem clean_clean (path : List Char) : clean (clean path) = clean path := by
  rw [clean_eq_render_parse path, clean_eq_render_parse, parse_render (parse_valid path)]

theorem render_ne_nil (p : Lexical) : p.render ≠ [] := by
  unfold Lexical.render; split <;> simp_all

theorem clean_ne_nil (path : List Char) : clean path ≠ [] := by
  rw [clean_eq_render_parse]; exact render_ne_nil _

@[simp] theorem isAbs_nil : isAbs [] = false := rfl

theorem isAbs_cons (c : Char) (l : List Char) : isAbs (c :: l) = decide (c = '/') := by
  by_cases hc : c = '/'
  · subst hc
    rfl
  · rw [isAbs.eq_2 _ (by simpa using hc)]
    simp [hc]

theorem isAbs_append {a : List Char} (ha : a ≠ []) (b : List Char) : isAbs (a ++ b) = isAbs a := by
  obtain ⟨c, a, rfl⟩ := List.exists_cons_of_ne_nil ha
  simp [isAbs_cons]

theorem isAbs_eq_false_of_elemAt_ne_nil {s : List Char} (h : elemAt s ≠ []) : isAbs s = false := by
  rcases s with _ | ⟨c, s⟩
  · rfl
  · by_cases hc : c = '/'
    · simp [hc] at h
    · simp [isAbs_cons, hc]

theorem elemAt_ne_nil_of_isAbs_eq_false {s : List Char} (hs : s ≠ []) (h : isAbs s = false) :
    elemAt s ≠ [] := by
  obtain ⟨c, s, rfl⟩ := List.exists_cons_of_ne_nil hs
  have hc : c ≠ '/' := by simpa [isAbs_cons] using h
  simp [elemAt_cons, hc]

/-- Reading a path joined to `a` continues from the reading of `a`. -/
theorem parse_append_sep {a : List Char} (ha : a ≠ []) (b : List Char) :
    parse (a ++ '/' :: b) = parseFrom (parse a) [] b := by
  rw [parse, parse, isAbs_append ha, parseFrom_append_sep]

/-- The path `s` beneath a cleaned root `r`, spelled out: `r + "/" + s`, except `"/" + s`
beneath `/` and `s` itself beneath `.`. -/
def beneath (r s : List Char) : List Char :=
  if r = ['/'] then '/' :: s else if r = ['.'] then s else r ++ '/' :: s

/-- The buffer of a valid reading is never the text `.`. -/
theorem buffer_ne_dot (hp : p.Valid) : p.buffer ≠ ['.'] := by
  intro h
  unfold Lexical.buffer at h
  cases hr : p.rooted
  · rcases he : p.elems with _ | ⟨e, _ | ⟨f, l⟩⟩
    · simp [hr, he] at h
    · simp only [hr, he, Bool.false_eq_true, if_false, List.nil_append, intercalate_singleton] at h
      exact Lexical.dot_not_mem_elems hp (by rw [he, h]; simp)
    · simp only [hr, he, Bool.false_eq_true, if_false, List.nil_append, intercalate_cons_cons] at h
      have hlen := congrArg List.length h
      simp at hlen
      have := List.length_pos.2 (Lexical.elems_wf hp e (by simp [he])).1
      omega
  · simp [hr] at h

/-- `Rel` turns a cleaned `.` back into an empty base: that is the buffer. -/
theorem render_buffer (hp : p.Valid) :
    (if p.render = ['.'] then [] else p.render) = p.buffer := by
  unfold Lexical.render
  by_cases hb : p.buffer = []
  · simp [hb]
  · simp [hb, buffer_ne_dot hp]

theorem isAbs_buffer (hp : p.Valid) : isAbs p.buffer = p.rooted := by
  unfold Lexical.buffer
  cases hr : p.rooted
  · rw [if_neg (by simp), List.nil_append, isAbs_intercalate (Lexical.elems_wf hp)]
  · rfl

theorem render_of_rooted (hr : p.rooted = true) :
    p.render = '/' :: ['/'].intercalate p.elems := by
  simp [Lexical.render, Lexical.buffer, hr]

/-- A cleaned text is its root, then elements joined by separators that read back as the
reading: its own elements, or `.` for none. -/
theorem render_eq_intercalate (hp : p.Valid) :
    ∃ fs : List (List Char), (∀ f ∈ fs, f ≠ [] ∧ '/' ∉ f) ∧
      fs.foldl Lexical.push ⟨p.rooted, 0, []⟩ = p ∧
      (fs = p.elems ∨ fs = [['.']] ∧ p.elems = []) ∧
      p.render = (if p.rooted then ['/'] else []) ++ ['/'].intercalate fs := by
  have hfold := foldl_push_elems hp
  by_cases h : p.elems = [] ∧ p.rooted = false
  · refine ⟨[['.']], by simp, by simpa [h.1] using hfold, .inr ⟨rfl, h.1⟩, ?_⟩
    simp [Lexical.render, Lexical.buffer, h.1, h.2]
  · refine ⟨p.elems, Lexical.elems_wf hp, hfold, .inl rfl, ?_⟩
    have hbuf : p.buffer ≠ [] := by
      cases hr : p.rooted
      · simpa [Lexical.buffer, hr, intercalate_eq_nil (Lexical.elems_ne_nil_of_mem hp)] using h
      · simp [Lexical.buffer, hr]
    rw [Lexical.render, if_neg hbuf, Lexical.buffer]

/-- Elements of a valid reading after its last `..` are names. -/
theorem isName_of_elems_eq_append (hp : p.Valid) {cs es : List (List Char)}
    (h : p.elems = cs ++ es) (hd : es.head? ≠ some ['.', '.']) : ∀ e ∈ es, IsName e := by
  have hnames : ∀ e ∈ p.names.reverse, IsName e := fun e he =>
    hp.names_isName e (List.mem_reverse.1 he)
  rw [Lexical.elems, List.append_eq_append_iff] at h
  rcases h with ⟨a, -, hR⟩ | ⟨_ | ⟨x, c⟩, hc, rfl⟩
  · exact fun e he => hnames e (hR ▸ List.mem_append_right a he)
  · simpa using hnames
  · have hx : x = ['.', '.'] := List.eq_of_mem_replicate (by rw [hc]; simp)
    simp [hx] at hd

end Reading

end GoArchive.Filepath
