import Mathlib

/-!
# Counting the slots that point somewhere

A table of slots `g : ι → β` and the number of slots in a finite set `S` whose value satisfies
`P`: the descriptors that hold a file, the files that hold an inode, the processes whose
directory it is. Changing one slot changes the count by what the slot held and what it holds
now (`count_update`), and a sum of counts over rows changes by the one row that changed
(`sum_update_add`). That is all the arithmetic a reference count kept in step with its pointers
needs.
-/

namespace Count

variable {ι β : Type*}

/-- The slots of `S` whose value under `g` satisfies `P`. -/
def count (S : Finset ι) (g : ι → β) (P : β → Prop) [DecidablePred P] : Nat :=
  (S.filter fun i => P (g i)).card

variable {S : Finset ι} {g g' : ι → β} {P : β → Prop} [DecidablePred P]

theorem count_eq_sum : count S g P = ∑ i ∈ S, if P (g i) then 1 else 0 := by
  rw [count, Finset.card_filter]

theorem count_congr (h : ∀ i ∈ S, (P (g' i) ↔ P (g i))) : count S g' P = count S g P := by
  unfold count
  congr 1
  exact Finset.filter_congr h

theorem count_eq_zero : count S g P = 0 ↔ ∀ i ∈ S, ¬ P (g i) := by
  simp [count, Finset.filter_eq_empty_iff]

theorem count_pos : 0 < count S g P ↔ ∃ i ∈ S, P (g i) := by
  rw [Nat.pos_iff_ne_zero, Ne, count_eq_zero]
  push Not
  rfl

/-- A slot of `S` that satisfies `P` is counted. -/
theorem one_le_count {a : ι} (ha : a ∈ S) (hp : P (g a)) : 1 ≤ count S g P :=
  count_pos.mpr ⟨a, ha, hp⟩

/-- Counting over `range (n + 1)` adds slot `n`. -/
theorem count_range_succ {g : Nat → β} (n : Nat) :
    count (Finset.range (n + 1)) g P = count (Finset.range n) g P + if P (g n) then 1 else 0 := by
  rw [count_eq_sum, count_eq_sum, Finset.sum_range_succ]

variable [DecidableEq ι]

/-- A sum over `S` with one term replaced: the old term comes off and the new one goes on. -/
theorem sum_update_add {a : ι} (ha : a ∈ S) (f : ι → Nat) (b : Nat) :
    (∑ x ∈ S, Function.update f a b x) + f a = (∑ x ∈ S, f x) + b := by
  rw [Finset.sum_update_of_mem ha, ← Finset.add_sum_erase S f ha,
    Finset.sdiff_singleton_eq_erase]
  omega

/-- One slot changed from `g a` to `v`. -/
theorem count_update {a : ι} (ha : a ∈ S) (v : β) :
    count S (Function.update g a v) P + (if P (g a) then 1 else 0) =
      count S g P + (if P v then 1 else 0) := by
  have hfun : (fun i => if P (Function.update g a v i) then 1 else 0) =
      Function.update (fun i => if P (g i) then 1 else 0) a (if P v then 1 else 0) := by
    funext i
    by_cases hi : i = a
    · subst hi
      simp
    · simp [hi]
  rw [count_eq_sum, count_eq_sum, hfun]
  exact sum_update_add ha _ _

/-- One slot changed, counted through a map `φ` of the slots' values. -/
theorem count_update_comp {γ : Type*} {a : ι} (ha : a ∈ S) (φ : β → γ) (v : β) {Q : γ → Prop}
    [DecidablePred Q] :
    count S (fun i => φ (Function.update g a v i)) Q + (if Q (φ (g a)) then 1 else 0) =
      count S (fun i => φ (g i)) Q + (if Q (φ v) then 1 else 0) := by
  have hfun : (fun i => φ (Function.update g a v i)) = Function.update (fun i => φ (g i)) a (φ v) :=
    funext fun i => Function.apply_update (fun _ => φ) g a v i
  rw [hfun]
  exact count_update ha (φ v)

end Count
