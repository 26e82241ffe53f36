import Mathlib.Data.List.Basic

/-!
# Go calls and path elements

The chroot helpers of this repository lean on Go's `path/filepath` on Unix, where a path
is a string of bytes and `/` is the only separator. A path is modelled as the list of its
characters: `filepath.Clean` and `filepath.Rel` inspect nothing but `/` and `.` and copy
every other byte unchanged.

A call of a Go function returns a value, returns an error, panics at run time, or loops
forever. `Outcome` names the four, so that "never panics" and "always returns" are
statements about the model rather than assumptions of it.

## Main definitions

* `GoArchive.Outcome` — the four ways a Go call ends, with `Outcome.bind` for
  `if err != nil { return err }`
* `Filepath.elemAt`, `Filepath.afterElem` — the element at the front of a path and what
  follows its separator, the two moves of every element loop in `path/filepath`
-/

namespace GoArchive

/-- How a call of a Go function ends: a value with a nil error, a non-nil error, a
run-time panic, or no end at all. -/
inductive Outcome (α : Type) where
  | ok (value : α)
  | error (msg : String)
  | panic (msg : String)
  | hang
  deriving DecidableEq, Repr

namespace Outcome

variable {α β : Type}

/-- Go's `v, err := f(); if err != nil { return err }`: a panic or a loop that never
exits propagates as well. -/
def bind : Outcome α → (α → Outcome β) → Outcome β
  | ok a, f => f a
  | error m, _ => error m
  | panic m, _ => panic m
  | hang, _ => hang

@[simp] theorem ok_bind (a : α) (f : α → Outcome β) : (ok a).bind f = f a := rfl

@[simp] theorem error_bind (m : String) (f : α → Outcome β) : (error m).bind f = error m := rfl

theorem bind_eq_ok {x : Outcome α} {f : α → Outcome β} {b : β} :
    x.bind f = ok b ↔ ∃ a, x = ok a ∧ f a = ok b := by
  cases x <;> simp [bind]

end Outcome

namespace Filepath

/-- The element at the front of `l`: its bytes up to the first separator. -/
def elemAt (l : List Char) : List Char := l.takeWhile (· ≠ '/')

/-- What follows the element at the front of `l` and the separator after it. -/
def afterElem (l : List Char) : List Char := (l.dropWhile (· ≠ '/')).drop 1

@[simp] theorem elemAt_nil : elemAt [] = [] := rfl

@[simp] theorem afterElem_nil : afterElem [] = [] := rfl

theorem elemAt_cons (c : Char) (l : List Char) :
    elemAt (c :: l) = if c = '/' then [] else c :: elemAt l := by
  by_cases h : c = '/' <;> simp [elemAt, List.takeWhile_cons, h]

theorem afterElem_cons (c : Char) (l : List Char) :
    afterElem (c :: l) = if c = '/' then l else afterElem l := by
  by_cases h : c = '/' <;> simp [afterElem, List.dropWhile_cons, h]

@[simp] theorem elemAt_sep_cons (l : List Char) : elemAt ('/' :: l) = [] := by
  simp [elemAt_cons]

@[simp] theorem afterElem_sep_cons (l : List Char) : afterElem ('/' :: l) = l := by
  simp [afterElem_cons]

/-- Reading an element stops at the first separator. -/
theorem elemAt_append_sep {e : List Char} (h : '/' ∉ e) (l : List Char) :
    elemAt (e ++ '/' :: l) = e := by
  induction e with
  | nil => simp
  | cons c e ih =>
    simp only [List.mem_cons, not_or] at h
    simp [elemAt_cons, Ne.symm h.1, ih h.2]

theorem afterElem_append_sep {e : List Char} (h : '/' ∉ e) (l : List Char) :
    afterElem (e ++ '/' :: l) = l := by
  induction e with
  | nil => simp
  | cons c e ih =>
    simp only [List.mem_cons, not_or] at h
    simp [afterElem_cons, Ne.symm h.1, ih h.2]

/-- The element at the front does not look past the first separator. -/
theorem elemAt_append_sep_cons (l s : List Char) : elemAt (l ++ '/' :: s) = elemAt l := by
  induction l with
  | nil => simp
  | cons c l ih => by_cases hc : c = '/' <;> simp [elemAt_cons, hc, ih]

theorem afterElem_append_sep_cons (l s : List Char) :
    afterElem (l ++ '/' :: s) = if '/' ∈ l then afterElem l ++ '/' :: s else s := by
  induction l with
  | nil => simp
  | cons c l ih =>
    by_cases hc : c = '/'
    · subst hc
      simp
    · simp [afterElem_cons, hc, ih, Ne.symm hc]

theorem elemAt_of_sep_not_mem {e : List Char} (h : '/' ∉ e) : elemAt e = e := by
  induction e with
  | nil => rfl
  | cons c e ih =>
    simp only [List.mem_cons, not_or] at h
    simp [elemAt_cons, Ne.symm h.1, ih h.2]

theorem afterElem_of_sep_not_mem {e : List Char} (h : '/' ∉ e) : afterElem e = [] := by
  induction e with
  | nil => rfl
  | cons c e ih =>
    simp only [List.mem_cons, not_or] at h
    simp [afterElem_cons, Ne.symm h.1, ih h.2]

theorem length_afterElem_le (l : List Char) : (afterElem l).length ≤ l.length := by
  induction l with
  | nil => simp
  | cons c l ih => rw [afterElem_cons]; split <;> simp; omega

theorem length_afterElem_lt {l : List Char} (h : l ≠ []) : (afterElem l).length < l.length := by
  cases l with
  | nil => exact absurd rfl h
  | cons c l => have := length_afterElem_le l; rw [afterElem_cons]; split <;> simp; omega

theorem sep_not_mem_elemAt (l : List Char) : '/' ∉ elemAt l := by
  intro h
  simpa using List.mem_takeWhile_imp h

end Filepath

end GoArchive
