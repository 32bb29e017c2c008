import Mathlib
import Xv6.Grep

/-!
# `grep`'s matcher against the reading of its patterns

A pattern, after an optional leading `^`, is read left to right as a list of atoms (`atoms`):
`c*` for zero or more `c` (any characters, for `.`), `.` for any one character, a `$` that ends
the pattern for the end of the text, and any other character for itself. `Matches as w r` says
that the atoms `as` match the string `w`, which the text continues with `r`; `r` is there for
`$`, which needs it empty.

`matchstar_iff` and `matchhere_iff` show that `matchstar` and `matchhere` decide whether the
text begins with a string the atoms match, and `match_iff_found` that `match` decides whether
some suffix does (the text itself only, after `^`). Every function is structurally recursive, so
each call returns.
-/

namespace Xv6.Grep

/-- An atom of a pattern. -/
inductive Atom where
  /-- `c*`: zero or more `c`, any characters for `.`. -/
  | star (c : Char)
  /-- `.`: any one character. -/
  | any
  /-- `$` at the end of the pattern: the end of the text. -/
  | eol
  /-- Any other character: itself. -/
  | lit (c : Char)
  deriving DecidableEq, Repr

/-- The atoms of a pattern, read left to right. -/
def atoms : List Char → List Atom
  | [] => []
  | c :: '*' :: re => .star c :: atoms re
  | ['$'] => [.eol]
  | '.' :: re => .any :: atoms re
  | c :: re => .lit c :: atoms re

/-- `Matches as w r`: the atoms `as` match `w`, and the text goes on with `r` after it. -/
inductive Matches : List Atom → List Char → List Char → Prop where
  | nil (r : List Char) : Matches [] [] r
  | starNil {c : Char} {as : List Atom} {w r : List Char} :
      Matches as w r → Matches (.star c :: as) w r
  | starCons {c x : Char} {as : List Atom} {w r : List Char} :
      (x = c ∨ c = '.') → Matches (.star c :: as) w r → Matches (.star c :: as) (x :: w) r
  | any {x : Char} {as : List Atom} {w r : List Char} :
      Matches as w r → Matches (.any :: as) (x :: w) r
  | lit {c : Char} {as : List Atom} {w r : List Char} :
      Matches as w r → Matches (.lit c :: as) (c :: w) r
  | eol {as : List Atom} : Matches as [] [] → Matches (.eol :: as) [] []

/-- What `match` is to decide: a suffix of `text` begins with a string the pattern's atoms
match; after a leading `^`, `text` itself does. -/
def Found : List Char → List Char → Prop
  | '^' :: re, text => ∃ w r, text = w ++ r ∧ Matches (atoms re) w r
  | re, text => ∃ i ≤ text.length, ∃ w r, text.drop i = w ++ r ∧ Matches (atoms re) w r

/-! ## The atoms one at a time -/

section Matches

variable {as : List Atom} {w r : List Char}

@[simp]
theorem matches_nil_iff : Matches [] w r ↔ w = [] := by
  constructor
  · rintro ⟨⟩
    rfl
  · rintro rfl
    exact .nil r

theorem matches_star_iff {c : Char} :
    Matches (.star c :: as) w r ↔
      Matches as w r ∨ ∃ x w', w = x :: w' ∧ (x = c ∨ c = '.') ∧ Matches (.star c :: as) w' r := by
  constructor
  · intro h
    cases h with
    | starNil hm => exact .inl hm
    | starCons hc hm => exact .inr ⟨_, _, rfl, hc, hm⟩
  · rintro (hm | ⟨x, w', rfl, hc, hm⟩)
    · exact .starNil hm
    · exact .starCons hc hm

@[simp]
theorem matches_any_iff : Matches (.any :: as) w r ↔ ∃ x w', w = x :: w' ∧ Matches as w' r := by
  constructor
  · rintro ⟨⟩
    exact ⟨_, _, rfl, ‹_›⟩
  · rintro ⟨x, w', rfl, hm⟩
    exact .any hm

@[simp]
theorem matches_lit_iff {c : Char} : Matches (.lit c :: as) w r ↔ ∃ w', w = c :: w' ∧ Matches as w' r := by
  constructor
  · rintro ⟨⟩
    exact ⟨_, rfl, ‹_›⟩
  · rintro ⟨w', rfl, hm⟩
    exact .lit hm

@[simp]
theorem matches_eol_iff : Matches (.eol :: as) w r ↔ w = [] ∧ r = [] ∧ Matches as [] [] := by
  constructor
  · rintro ⟨⟩
    exact ⟨rfl, rfl, ‹_›⟩
  · rintro ⟨rfl, rfl, hm⟩
    exact .eol hm

end Matches

/-- Past the `c*` and `$` cases, a pattern's first character is one atom. -/
theorem atoms_cons {c : Char} {re : List Char} (hstar : ∀ re', re = '*' :: re' → False)
    (heol : c = '$' → re = [] → False) :
    atoms (c :: re) = (if c = '.' then .any else .lit c) :: atoms re := by
  by_cases hdot : c = '.'
  · subst hdot
    rw [atoms.eq_4 re hstar, if_pos rfl]
  · rw [atoms.eq_5 c re hstar heol hdot, if_neg hdot]

/-! ## `matchstar` and `matchhere` -/

/-- `matchstar` decides `c*` followed by the atoms `here` decides. -/
theorem matchstar_iff {here : List Char → Bool} {as : List Atom}
    (hhere : ∀ t, here t = true ↔ ∃ w r, t = w ++ r ∧ Matches as w r) (c : Char) (text : List Char) :
    matchstar here c text = true ↔ ∃ w r, text = w ++ r ∧ Matches (.star c :: as) w r := by
  induction text with
  | nil =>
    rw [matchstar, hhere]
    constructor
    · rintro ⟨w, r, h, hm⟩
      exact ⟨w, r, h, .starNil hm⟩
    · rintro ⟨w, r, h, hm⟩
      obtain ⟨rfl, rfl⟩ := List.append_eq_nil_iff.mp h.symm
      -- the empty string: no `c` to step over
      rcases matches_star_iff.mp hm with hm | ⟨_, _, hw, -⟩
      · exact ⟨[], [], rfl, hm⟩
      · cases hw
  | cons x text ih =>
    simp only [matchstar, Bool.or_eq_true, Bool.and_eq_true, beq_iff_eq, hhere, ih]
    constructor
    · rintro (⟨w, r, h, hm⟩ | ⟨hc, w, r, rfl, hm⟩)
      · exact ⟨w, r, h, .starNil hm⟩
      · exact ⟨x :: w, r, rfl, .starCons hc hm⟩
    · rintro ⟨w, r, h, hm⟩
      rcases matches_star_iff.mp hm with hm' | ⟨y, w', rfl, hc, hm'⟩
      · exact .inl ⟨w, r, h, hm'⟩
      · -- one `c` stepped over
        obtain ⟨rfl, rfl⟩ := List.cons.inj h
        exact .inr ⟨hc, w', r, rfl, hm'⟩

/-- `matchhere` decides whether `text` begins with a string the atoms of `re` match. The
induction is on the length of the pattern, since `c*` passes two characters at once. -/
theorem matchhere_iff (re text : List Char) :
    matchhere re text = true ↔ ∃ w r, text = w ++ r ∧ Matches (atoms re) w r := by
  induction hn : re.length using Nat.strongRecOn generalizing re text with
  | ind n ih =>
    fun_cases matchhere re text
    · exact iff_of_true rfl ⟨[], text, rfl, .nil text⟩
    · next c re =>
      rw [atoms]
      exact matchstar_iff
        (fun t => ih re.length (by simp only [← hn, List.length_cons]; omega) re t rfl) c text
    · -- `$` last: only the empty string, at the end
      simp only [atoms, matches_eol_iff, matches_nil_iff]
      constructor
      · intro h
        exact ⟨[], [], by simpa using h, rfl, rfl, trivial⟩
      · rintro ⟨w, r, rfl, rfl, rfl, -⟩
        rfl
    · next c re hstar heol =>
      rw [atoms_cons hstar heol]
      simp only [Bool.false_eq_true, false_iff, not_exists, not_and]
      intro w r h
      obtain ⟨rfl, rfl⟩ := List.append_eq_nil_iff.mp h.symm
      split <;> simp
    · next c re x text hstar heol =>
      rw [atoms_cons hstar heol]
      have ih' := ih re.length (by simp [← hn]) re text rfl
      simp only [Bool.and_eq_true, Bool.or_eq_true, beq_iff_eq, ih']
      split
      · next hdot =>
        simp only [hdot, true_or, true_and, matches_any_iff]
        constructor
        · rintro ⟨w, r, rfl, hm⟩
          exact ⟨x :: w, r, rfl, x, w, rfl, hm⟩
        · rintro ⟨_, r, h, y, w, rfl, hm⟩
          obtain ⟨-, rfl⟩ := List.cons.inj h
          exact ⟨w, r, rfl, hm⟩
      · next hdot =>
        simp only [hdot, false_or, matches_lit_iff]
        constructor
        · rintro ⟨rfl, w, r, rfl, hm⟩
          exact ⟨c :: w, r, rfl, w, rfl, hm⟩
        · rintro ⟨_, r, h, w, rfl, hm⟩
          obtain ⟨rfl, rfl⟩ := List.cons.inj h
          exact ⟨rfl, w, r, rfl, hm⟩

example : matchhere ['a', '*', 'b'] ['a', 'a', 'b', 'c'] = true := by decide

/-! ## `match` -/

/-- `match`'s loop tries `matchhere` at every position, the end of the text included. -/
theorem matchLoop_iff (re text : List Char) :
    matchLoop re text = true ↔ ∃ i ≤ text.length, matchhere re (text.drop i) = true := by
  induction text with
  | nil => simp [matchLoop]
  | cons x text ih =>
    rw [matchLoop, Bool.or_eq_true, ih]
    constructor
    · rintro (h | ⟨i, hi, h⟩)
      · exact ⟨0, by simp, h⟩
      · exact ⟨i + 1, by simpa using hi, h⟩
    · rintro ⟨_ | i, hi, h⟩
      · exact .inl h
      · exact .inr ⟨i, by simpa using hi, h⟩

/-- `match(re, text)` returns `1` exactly when some suffix of `text` (only `text` itself after
a leading `^`) begins with a string the pattern's atoms match. -/
theorem match_iff_found (re text : List Char) : «match» re text = true ↔ Found re text := by
  by_cases hanchor : ∃ re', re = '^' :: re'
  · obtain ⟨re', rfl⟩ := hanchor
    exact matchhere_iff re' text
  -- every position is tried
  have hmatch : «match» re text = matchLoop re text := by
    unfold «match»
    split
    · exact absurd ⟨_, rfl⟩ hanchor
    · rfl
  have hfound : Found re text ↔
      ∃ i ≤ text.length, ∃ w r, text.drop i = w ++ r ∧ Matches (atoms re) w r := by
    unfold Found
    split
    · exact absurd ⟨_, rfl⟩ hanchor
    · rfl
  rw [hmatch, hfound, matchLoop_iff]
  simp only [matchhere_iff]

example : «match» ['a', '*', 'b', '$'] ['x', 'a', 'a', 'b'] = true := by decide

end Xv6.Grep
