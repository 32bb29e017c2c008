import Mathlib

/-!
# Exclusive ownership of resources drawn from a pool

A family of holders `P` owns resources of type `α`: `own x = some a` when the holder `x`
has `a`. The pool is what is free. `Excl own free` says that no resource has two holders and
that no held resource is in the pool. A running operation moves resources one at a time: it
takes one from the pool (it is then `Held`: neither free nor owned), gives a held one to an
empty holder, drops one from a holder (it is held again), or releases a held one to the pool.
Each move keeps `Excl`.
-/

namespace Owners

variable {P α : Type*} {own : P → Option α} {free : α → Prop}

/-- No resource has two holders, and no held resource is free. -/
structure Excl (own : P → Option α) (free : α → Prop) : Prop where
  inj : ∀ x y a, own x = some a → own y = some a → x = y
  not_free : ∀ x a, own x = some a → ¬ free a

/-- `a` is in the hands of the running operation: no holder has it and it is not free. -/
structure Held (own : P → Option α) (free : α → Prop) (a : α) : Prop where
  not_owned : ∀ x, own x ≠ some a
  not_free : ¬ free a

/-- A free resource is no holder's. -/
theorem Excl.ne_of_free (h : Excl own free) {x : P} {a : α} (ha : free a) : own x ≠ some a :=
  fun hx => h.not_free x a hx ha

/-- Taking `a` out of the pool: what is left free was free, and is not `a`. -/
theorem Excl.take {free' : α → Prop} (h : Excl own free) {a : α} (ha : free a)
    (hfree : ∀ b, free' b → free b ∧ b ≠ a) : Excl own free' ∧ Held own free' a :=
  ⟨⟨h.inj, fun x b hx hb => h.not_free x b hx (hfree b hb).1⟩,
    ⟨fun _ hx => h.not_free _ _ hx ha, fun hb => (hfree a hb).2 rfl⟩⟩

/-- The pool shrinks: ownership and what is held stay as they were. -/
theorem Excl.shrink {free' : α → Prop} (h : Excl own free) (hfree : ∀ b, free' b → free b) :
    Excl own free' :=
  ⟨h.inj, fun x b hx hb => h.not_free x b hx (hfree b hb)⟩

theorem Held.shrink {free' : α → Prop} {a : α} (h : Held own free a)
    (hfree : ∀ b, free' b → free b) : Held own free' a :=
  ⟨h.not_owned, fun hb => h.not_free (hfree a hb)⟩

/-- Fewer holders: ownership stays exclusive. -/
theorem Excl.restrict {own' : P → Option α} (h : Excl own free)
    (hsub : ∀ x a, own' x = some a → own x = some a) : Excl own' free :=
  ⟨fun x y a hx hy => h.inj x y a (hsub x a hx) (hsub y a hy),
    fun x a hx => h.not_free x a (hsub x a hx)⟩

/-- Renaming the holders by an injective map keeps ownership exclusive. -/
theorem Excl.comp {Q : Type*} (h : Excl own free) {f : Q → P} (hf : Function.Injective f) :
    Excl (own ∘ f) free :=
  ⟨fun _ _ a hx hy => hf (h.inj _ _ a hx hy), fun _ a hx => h.not_free _ a hx⟩

/-- What a holder had before it was taken away is held by the operation. -/
theorem Excl.held_of_restrict {own' : P → Option α} (h : Excl own free)
    (hsub : ∀ x a, own' x = some a → own x = some a) {x : P} {a : α} (hx : own x = some a)
    (hx' : own' x = none) : Held own' free a := by
  refine ⟨fun y hy => ?_, h.not_free x a hx⟩
  obtain rfl := h.inj y x a (hsub y a hy) hx
  rw [hx'] at hy
  cases hy

theorem Held.restrict {own' : P → Option α} {a : α} (h : Held own free a)
    (hsub : ∀ x a, own' x = some a → own x = some a) : Held own' free a :=
  ⟨fun x hx => h.not_owned x (hsub x a hx), h.not_free⟩

section Update

variable [DecidableEq P]

/-- Giving a held resource to a holder (what the holder had, if anything, is no longer
owned). -/
theorem Excl.give (h : Excl own free) (x : P) {a : α} (ha : Held own free a) : Excl (Function.update own x (some a)) free := by
  refine ⟨fun y z b hy hz => ?_, fun y b hy => ?_⟩
  · rw [Function.update_apply] at hy hz
    split_ifs at hy hz with h1 h2 h2
    · exact h1.trans h2.symm
    · cases hy
      exact absurd hz (ha.not_owned z)
    · cases hz
      exact absurd hy (ha.not_owned y)
    · exact h.inj y z b hy hz
  · rw [Function.update_apply] at hy
    split_ifs at hy
    · cases hy
      exact ha.not_free
    · exact h.not_free y b hy

/-- Dropping the resource of a holder: it is then held by the operation. -/
theorem Excl.drop (h : Excl own free) {x : P} {a : α} (hx : own x = some a) :
    Excl (Function.update own x none) free ∧ Held (Function.update own x none) free a := by
  refine ⟨⟨fun y z b hy hz => ?_, fun y b hy => ?_⟩, ⟨fun y hy => ?_, h.not_free x a hx⟩⟩
  · rw [Function.update_apply] at hy hz
    split_ifs at hy hz
    exact h.inj y z b hy hz
  · rw [Function.update_apply] at hy
    split_ifs at hy
    exact h.not_free y b hy
  · rw [Function.update_apply] at hy
    split_ifs at hy with hyx
    exact hyx (h.inj y x a hy hx)

end Update

/-- Releasing a held resource to the pool: the pool grows by it at most. -/
theorem Excl.release {free' : α → Prop} (h : Excl own free) {a : α} (ha : Held own free a)
    (hfree : ∀ b, free' b → free b ∨ b = a) : Excl own free' := by
  refine ⟨h.inj, fun x b hx hb => ?_⟩
  rcases hfree b hb with hb | rfl
  · exact h.not_free x b hx hb
  · exact ha.not_owned x hx

/-- Another held resource stays held when `a` is released. -/
theorem Held.release {free' : α → Prop} {a b : α} (hb : Held own free b) (hab : b ≠ a)
    (hfree : ∀ c, free' c → free c ∨ c = a) : Held own free' b :=
  ⟨hb.not_owned, fun h => (hfree b h).elim hb.not_free hab⟩

end Owners
