import Mathlib

/-!
# Block copies

A memory is a function from addresses to contents. `Block.copy m d s n` is `m` with the `n`
cells from `s` copied to the `n` cells from `d`, all of them read before any is written: what a
move of a block means, whatever the two blocks share. `Copied` says the same cell by cell, and
`copied_iff` shows the two agree.

A loop that stores one cell at a time meets the specification when no store overwrites a cell
the loop has still to read. `copy_succ_front` takes the first store off the front of a copy and
`copy_succ_back` the last one off its back, each under the overlap condition that makes it valid.
-/

namespace Block

variable {α : Type*}

/-- `m` with the `n` cells from `s` copied, as they were, to the `n` cells from `d`. -/
def copy (m : Nat → α) (d s n : Nat) : Nat → α :=
  fun a => if d ≤ a ∧ a < d + n then m (s + (a - d)) else m a

/-- `m'` holds at `d` the `n` cells `m` holds at `s`, and agrees with `m` everywhere else. -/
def Copied (m m' : Nat → α) (d s n : Nat) : Prop :=
  (∀ i, i < n → m' (d + i) = m (s + i)) ∧ ∀ a, a < d ∨ d + n ≤ a → m' a = m a

theorem copy_apply_of_lt {m : Nat → α} {d s n : Nat} (i : Nat) (hi : i < n) :
    copy m d s n (d + i) = m (s + i) := by
  simp [copy, hi]

theorem copy_apply_of_out {m : Nat → α} {d s n a : Nat} (ha : a < d ∨ d + n ≤ a) :
    copy m d s n a = m a := by
  have hout : ¬ (d ≤ a ∧ a < d + n) := by omega
  simp only [copy, if_neg hout]

/-- The copy is the only memory that holds the copied cells and nothing else new. -/
theorem copied_iff {m m' : Nat → α} {d s n : Nat} : Copied m m' d s n ↔ m' = copy m d s n := by
  constructor
  · rintro ⟨hin, hout⟩
    funext a
    by_cases ha : d ≤ a ∧ a < d + n
    · obtain ⟨i, rfl⟩ : ∃ i, a = d + i := ⟨a - d, by omega⟩
      rw [hin i (by omega), copy_apply_of_lt i (by omega)]
    · rw [hout a (by omega), copy_apply_of_out (by omega)]
  · rintro rfl
    exact ⟨fun i hi => copy_apply_of_lt i hi, fun a ha => copy_apply_of_out ha⟩

@[simp] theorem copy_zero (m : Nat → α) (d s : Nat) : copy m d s 0 = m := by
  funext a
  exact copy_apply_of_out (by omega)

/-- A block copied onto itself is unchanged. -/
@[simp] theorem copy_self (m : Nat → α) (d n : Nat) : copy m d d n = m := by
  funext a
  by_cases ha : d ≤ a ∧ a < d + n
  · simp only [copy, if_pos ha]
    congr 1
    omega
  · exact copy_apply_of_out (by omega)

/-- The first store of a copy, taken off the front: cell `d` gets cell `s`, and the rest is a
copy from `d + 1` and `s + 1`. Valid when the destination does not start above the source or
lies wholly above it, so that no later read sees cell `d`. -/
theorem copy_succ_front (m : Nat → α) {d s n : Nat} (hov : d ≤ s ∨ s + (n + 1) ≤ d) :
    copy m d s (n + 1) = copy (Function.update m d (m s)) (d + 1) (s + 1) n := by
  funext a
  by_cases ha : d + 1 ≤ a ∧ a < d + 1 + n
  · have hsrc : s + 1 + (a - (d + 1)) = s + (a - d) := by omega
    have hne : s + (a - d) ≠ d := by omega
    simp only [copy]
    rw [if_pos ha, if_pos (show d ≤ a ∧ a < d + (n + 1) by omega), hsrc,
      Function.update_of_ne hne]
  · by_cases had : a = d
    · subst had
      simp only [copy, if_neg ha, Function.update_self, Nat.sub_self, Nat.add_zero]
      rw [if_pos (by omega)]
    · simp only [copy, if_neg ha, Function.update_of_ne had]
      rw [if_neg (by omega)]

/-- The last store of a copy, taken off the back: cell `d + n` gets cell `s + n`, after a copy
of the first `n` cells. Valid when the source does not start above the destination or lies
wholly above it, so that no earlier read sees cell `d + n`. -/
theorem copy_succ_back (m : Nat → α) {d s n : Nat} (hov : s ≤ d ∨ d + (n + 1) ≤ s) :
    copy m d s (n + 1) = copy (Function.update m (d + n) (m (s + n))) d s n := by
  funext a
  by_cases ha : d ≤ a ∧ a < d + n
  · have hne : s + (a - d) ≠ d + n := by omega
    simp only [copy]
    rw [if_pos ha, if_pos (show d ≤ a ∧ a < d + (n + 1) by omega), Function.update_of_ne hne]
  · by_cases han : a = d + n
    · subst han
      simp only [copy, if_neg ha, Function.update_self, Nat.add_sub_cancel_left]
      rw [if_pos (by omega)]
    · simp only [copy, if_neg ha, Function.update_of_ne han]
      rw [if_neg (by omega)]

end Block
