import Mathlib

/-!
# Lines of a stream

`Lines.split sep s` reads the stream `s` as the lines that a separator `sep` ends, each without
it, and the unfinished line after the last separator. Joining the lines back with their
separators and the unfinished line gives `s` again (`join_split`).

A reader that takes a stream in pieces keeps the unfinished line of what it has seen and reads on
from there: `split_append` says that this finds the same lines as splitting the whole stream.
`split_append_of_not_mem` says that a piece without separator only makes the first line longer.
-/

namespace Lines

variable {α : Type*} [DecidableEq α] (sep : α)

/-- The lines of `s` that `sep` ends, each without it, and the unfinished line after them. -/
def split : List α → List (List α) × List α
  | [] => ([], [])
  | c :: s =>
    if c = sep then ([] :: (split s).1, (split s).2)
    else
      match (split s).1 with
      | [] => ([], c :: (split s).2)
      | l :: ls => ((c :: l) :: ls, (split s).2)

/-- The stream that the lines `ls`, each ended by `sep`, and the unfinished line `r` make. -/
def join (ls : List (List α)) (r : List α) : List α := ls.flatMap (· ++ [sep]) ++ r

variable {sep}

@[simp] theorem split_nil : split sep [] = ([], []) := rfl

@[simp] theorem split_sep (s : List α) :
    split sep (sep :: s) = ([] :: (split sep s).1, (split sep s).2) := by
  simp [split]

theorem split_cons_of_ne {c : α} (hc : c ≠ sep) (s : List α) :
    split sep (c :: s) =
      match (split sep s).1 with
      | [] => ([], c :: (split sep s).2)
      | l :: ls => ((c :: l) :: ls, (split sep s).2) := by
  rw [split, if_neg hc]

/-- A stream without separator is one unfinished line. -/
theorem split_of_not_mem {s : List α} (h : sep ∉ s) : split sep s = ([], s) := by
  induction s with
  | nil => rfl
  | cons c s ih =>
    have hc : c ≠ sep := fun hc => h (hc ▸ List.mem_cons_self)
    rw [split_cons_of_ne hc, ih fun hs => h (List.mem_cons_of_mem c hs)]

/-- A line, its separator, and the rest of the stream. -/
theorem split_append_sep {l : List α} (hl : sep ∉ l) (t : List α) :
    split sep (l ++ sep :: t) = (l :: (split sep t).1, (split sep t).2) := by
  induction l with
  | nil => exact split_sep t
  | cons c l ih =>
    have hc : c ≠ sep := fun hc => hl (hc ▸ List.mem_cons_self)
    rw [List.cons_append, split_cons_of_ne hc, ih fun h => hl (List.mem_cons_of_mem c h)]

theorem not_mem_split_snd (s : List α) : sep ∉ (split sep s).2 := by
  induction s with
  | nil => simp
  | cons c s ih =>
    by_cases hc : c = sep
    · subst hc
      simpa using ih
    · rw [split_cons_of_ne hc]
      split
      · simpa [Ne.symm hc] using ih
      · exact ih

/-- Joining the lines back gives the stream. -/
theorem join_split (s : List α) : join sep (split sep s).1 (split sep s).2 = s := by
  induction s with
  | nil => rfl
  | cons c s ih =>
    by_cases hc : c = sep
    · subst hc
      simpa [join] using ih
    · rw [split_cons_of_ne hc]
      split
      · next hsplit =>
        rw [hsplit] at ih
        simpa [join] using ih
      · next l ls hsplit =>
        rw [hsplit] at ih
        simpa [join] using ih

/-- The unfinished line is what the stream ends with. -/
theorem split_snd_suffix (s : List α) : (split sep s).2 <:+ s := by
  have h : join sep (split sep s).1 (split sep s).2 = s := join_split s
  conv_rhs => rw [← h]
  exact List.suffix_append _ _

/-- Splitting a stream piece by piece: the lines of the first piece, then those of its
unfinished line continued by the second. -/
theorem split_append (s t : List α) :
    split sep (s ++ t) =
      ((split sep s).1 ++ (split sep ((split sep s).2 ++ t)).1,
        (split sep ((split sep s).2 ++ t)).2) := by
  induction s with
  | nil => rfl
  | cons c s ih =>
    by_cases hc : c = sep
    · subst hc
      rw [List.cons_append, split_sep, split_sep, ih]
      rfl
    · rw [List.cons_append, split_cons_of_ne hc, split_cons_of_ne hc, ih]
      cases hs : (split sep s).1 with
      | nil =>
        simp only [List.nil_append, List.cons_append]
        rw [split_cons_of_ne hc]
      | cons l ls => rfl

/-- A first piece without separator starts the first line. -/
theorem split_append_of_not_mem {p : List α} (hp : sep ∉ p) (t : List α) :
    (split sep (p ++ t)).1 = [] ∨ ∃ l ls, (split sep (p ++ t)).1 = (p ++ l) :: ls := by
  induction p with
  | nil =>
    rw [List.nil_append]
    cases (split sep t).1 with
    | nil => exact .inl rfl
    | cons l ls => exact .inr ⟨l, ls, rfl⟩
  | cons c p ih =>
    have hc : c ≠ sep := fun hc => hp (hc ▸ List.mem_cons_self)
    rw [List.cons_append, split_cons_of_ne hc]
    split
    · exact .inl rfl
    · next l ls heq =>
      rcases ih fun h => hp (List.mem_cons_of_mem c h) with h | ⟨l', ls', h⟩
      · rw [h] at heq
        cases heq
      · rw [h] at heq
        obtain ⟨rfl, rfl⟩ := List.cons.inj heq
        exact .inr ⟨l', _, rfl⟩

end Lines
