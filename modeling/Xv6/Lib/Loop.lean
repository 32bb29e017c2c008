import Mathlib

/-!
# Binds and loops in the exception monad

A C function that may `panic` is a computation in `Except ε`. Its binds reduce on a result at
once (`ok_bind`, `error_bind`), which is what symbolic execution of the model needs.

A C loop `for(i = 0; i < n; i++)` whose body may fail is `(List.range n).foldlM f s` in
`Except ε`. Its invariant is indexed by the number of rounds done: if every round from a state
satisfying `I i` succeeds into one satisfying `I (i + 1)`, the loop succeeds into `I n`.
-/

namespace Loop

universe u v w

variable {σ : Type u} {ε : Type v}

@[simp] theorem ok_bind {α : Type u} (a : α) (f : α → Except ε σ) : (Except.ok a >>= f) = f a :=
  rfl

@[simp] theorem error_bind {α : Type u} (e : ε) (f : α → Except ε σ) :
    (Except.error e >>= f) = Except.error e :=
  rfl

@[simp] theorem pure_eq_ok (a : σ) : (pure a : Except ε σ) = .ok a := rfl

/-- A bind that succeeds: both halves did. -/
theorem bind_eq_ok {α β : Type u} {x : Except ε α} {f : α → Except ε β} {b : β} :
    (x >>= f) = .ok b ↔ ∃ a, x = .ok a ∧ f a = .ok b := by
  cases x with
  | error e => simp [error_bind]
  | ok a => simp [ok_bind]

/-- A result whose value is mapped away keeps its error: the form in which a kernel check,
which needs decidable equality on the result, states the panic of a computation. -/
theorem map_eq_error {α β : Type u} {f : α → β} {x : Except ε α} {e : ε} :
    x.map f = .error e ↔ x = .error e := by
  cases x <;> simp [Except.map]

/-- The invariant rule for a loop over `List.range n`: a total-correctness statement, so that the
loop is shown to succeed and not only to satisfy `I n` if it does. -/
theorem foldlM_range {f : σ → Nat → Except ε σ} (I : Nat → σ → Prop) (n : Nat)
    (hstep : ∀ i s, i < n → I i s → ∃ s', f s i = .ok s' ∧ I (i + 1) s') :
    ∀ s, I 0 s → ∃ s', (List.range n).foldlM f s = .ok s' ∧ I n s' := by
  induction n with
  | zero => exact fun s hs => ⟨s, rfl, hs⟩
  | succ n ih =>
    intro s hs
    -- the first `n` rounds, then round `n`
    obtain ⟨s₁, h₁, hI₁⟩ := ih (fun i s hi => hstep i s (by omega)) s hs
    obtain ⟨s₂, h₂, hI₂⟩ := hstep n s₁ (by omega) hI₁
    refine ⟨s₂, ?_, hI₂⟩
    rw [List.range_succ, List.foldlM_append, h₁]
    simp [h₂]

/-- The loop followed by a computation on its result. -/
theorem foldlM_range_bind {β : Type u} {f : σ → Nat → Except ε σ} {g : σ → Except ε β}
    (I : Nat → σ → Prop) (n : Nat)
    (hstep : ∀ i s, i < n → I i s → ∃ s', f s i = .ok s' ∧ I (i + 1) s') {s : σ} (hs : I 0 s)
    {Q : β → Prop} (hg : ∀ s', I n s' → ∃ b, g s' = .ok b ∧ Q b) :
    ∃ b, ((List.range n).foldlM f s >>= g) = .ok b ∧ Q b := by
  obtain ⟨s', hloop, hI⟩ := foldlM_range I n hstep s hs
  rw [hloop, ok_bind]
  exact hg s' hI

/-- The invariant rule for a loop over the elements of a list, indexed by the elements done: if
every round from a state satisfying `I done` succeeds into one satisfying `I (done ++ [p])`,
the loop succeeds into `I l`. -/
theorem foldlM_list {α : Type w} {f : σ → α → Except ε σ} (I : List α → σ → Prop) (l : List α)
    (hstep : ∀ done p rest s, done ++ p :: rest = l → I done s →
      ∃ s', f s p = .ok s' ∧ I (done ++ [p]) s') :
    ∀ s, I [] s → ∃ s', l.foldlM f s = .ok s' ∧ I l s' := by
  -- the rounds still to do are `rest`, after `done`
  suffices h : ∀ rest done, done ++ rest = l → ∀ s, I done s →
      ∃ s', rest.foldlM f s = .ok s' ∧ I l s' from
    fun s hs => h l [] rfl s hs
  intro rest
  induction rest with
  | nil =>
    intro done hl s hs
    rw [List.append_nil] at hl
    exact ⟨s, rfl, hl ▸ hs⟩
  | cons p rest ih =>
    intro done hl s hs
    obtain ⟨s₁, h₁, hI₁⟩ := hstep done p rest s hl hs
    obtain ⟨s₂, h₂, hI₂⟩ := ih (done ++ [p]) (by rw [List.append_assoc]; exact hl) s₁ hI₁
    refine ⟨s₂, ?_, hI₂⟩
    rw [List.foldlM_cons, h₁, ok_bind]
    exact h₂

/-- A reflexive and transitive relation that every round makes between the state before it and
the state after it holds between the start and the end of a loop that succeeds. -/
theorem foldlM_rel {α : Type w} {f : σ → α → Except ε σ} (R : σ → σ → Prop)
    (hrefl : ∀ s, R s s) (htrans : ∀ s₁ s₂ s₃, R s₁ s₂ → R s₂ s₃ → R s₁ s₃)
    (hstep : ∀ s a s', f s a = .ok s' → R s s') :
    ∀ (l : List α) s s', l.foldlM f s = .ok s' → R s s' := by
  intro l
  induction l with
  | nil =>
    intro s s' h
    cases h
    exact hrefl s
  | cons a l ih =>
    intro s s' h
    rw [List.foldlM_cons] at h
    obtain ⟨s₁, h₁, h₂⟩ := bind_eq_ok.mp h
    exact htrans _ _ _ (hstep s a s₁ h₁) (ih s₁ s' h₂)

end Loop
