import GoArchive.Filepath.Basic

/-!
# `filepath.Clean`

Go's `filepath.Clean` on Unix, byte loop for byte loop. The function reads `path` with an
index `r` and writes into a buffer `out` whose length is `out.w`; `dotdot` marks where a
`..` element may no longer back up, either the leading slash or the end of a leading run
of `..` elements. The buffer is modelled last byte first, so that `out.append` is a cons
and the backing up of `out.w--` is a pop.

The `switch` of the main loop reads up to three bytes ahead. Each case consumes what it
reads and recurses on the rest of the input, which makes the loop structural: the inner
`for` that copies an element is the `copying` flag, and the separator that ends a copied
element is the one the next turn of the `switch` skips.

## Main definitions

* `Filepath.cleanLoop` — the `for r < n` loop with its `switch`
* `Filepath.clean` — `filepath.Clean`
-/

namespace GoArchive.Filepath

/-- The test `r+1 == n || os.IsPathSeparator(path[r+1])`: the element ends here. -/
def endsElem : List Char → Bool
  | [] => true
  | c :: _ => c == '/'

/-- `out.append(Separator)` before a new element unless `out` holds only the root. -/
def sepIf (rooted : Bool) (out : List Char) : List Char :=
  if (rooted && out.length != 1) || (!rooted && out.length != 0) then '/' :: out else out

/-- `out.w--`, then `for out.w > dotdot && !os.IsPathSeparator(out.index(out.w)) { out.w-- }`:
drop the byte just below `out.w` while the one dropped last was no separator. -/
def backtrack (dotdot : Nat) : List Char → List Char
  | [] => []
  | c :: out => if dotdot < out.length ∧ c ≠ '/' then backtrack dotdot out else out

/-- Backing up passes over bytes that are no separator while `out.w` stays above `dotdot`. -/
theorem backtrack_append {dotdot : Nat} {w rest : List Char} (hw : '/' ∉ w)
    (h : dotdot < rest.length) : backtrack dotdot (w ++ rest) = backtrack dotdot rest := by
  induction w with
  | nil => rfl
  | cons c w ih =>
    simp only [List.mem_cons, not_or] at hw
    rw [List.cons_append, backtrack, if_pos ⟨by simp; omega, Ne.symm hw.1⟩, ih hw.2]

@[simp] theorem backtrack_sep_cons (dotdot : Nat) (rest : List Char) :
    backtrack dotdot ('/' :: rest) = rest := by
  simp [backtrack]

theorem backtrack_cons_of_length_le {dotdot : Nat} (c : Char) {rest : List Char}
    (h : rest.length ≤ dotdot) : backtrack dotdot (c :: rest) = rest := by
  simp only [backtrack]
  rw [if_neg (by omega)]

/-- The `..` case of the `switch`: back up over the last element, or, in a relative path
with nothing left to back up over, append `..` and move `dotdot` past it. -/
def dotDot (rooted : Bool) (out : List Char) (dotdot : Nat) : List Char × Nat :=
  if dotdot < out.length then (backtrack dotdot out, dotdot)
  else if rooted then (out, dotdot)
  else
    let out := '.' :: '.' :: (if 0 < out.length then '/' :: out else out)
    (out, out.length)

/-- The main loop of `Clean` over the bytes not yet read. With `copying` set, the inner
`for` is copying an element into `out`. -/
def cleanLoop (rooted : Bool) : Bool → List Char → Nat → List Char → List Char
  | _, out, _, [] => out
  | true, out, dotdot, c :: rest =>
    if c = '/' then cleanLoop rooted false out dotdot rest
    else cleanLoop rooted true (c :: out) dotdot rest
  | false, out, dotdot, '/' :: rest => cleanLoop rooted false out dotdot rest
  | false, out, dotdot, '.' :: '.' :: rest =>
    if endsElem rest then
      let next := dotDot rooted out dotdot
      cleanLoop rooted false next.1 next.2 rest
    else cleanLoop rooted true ('.' :: '.' :: sepIf rooted out) dotdot rest
  | false, out, dotdot, '.' :: rest =>
    if endsElem rest then cleanLoop rooted false out dotdot rest
    else cleanLoop rooted true ('.' :: sepIf rooted out) dotdot rest
  | false, out, dotdot, c :: rest => cleanLoop rooted true (c :: sepIf rooted out) dotdot rest

/-- `if out.w == 0 { out.append('.') }`, then `out.string()`. -/
def finish (out : List Char) : List Char :=
  (if out = [] then ['.'] else out).reverse

/-- Go's `filepath.Clean` on Unix: the shortest path equivalent to `path` by lexical
processing alone. -/
def clean : List Char → List Char
  | [] => ['.']
  | '/' :: rest => finish (cleanLoop true false ['/'] 1 rest)
  | path => finish (cleanLoop false false [] 0 path)

end GoArchive.Filepath
