import Mathlib

/-!
# Runs of a labelled transition relation

A system is given by a step relation `step : σ → α → σ → Prop`: `step s a t` says that the
event `a` takes the state `s` to `t`. A run records the events in the order they happened,
appended at the end, so that an invariant about the state *and* the history so far can be
proved one event at a time (`Run.trace_induction`).

The second half collects what such history invariants need about the suffix of a trace that
follows the last event of a given kind (`sinceLast`), and about the value that the last event
of a kind carries (`lastOf`).
-/

namespace Trace

variable {σ α : Type*}

/-- `Run step s l t`: the events `l`, in order, take `s` to `t`. -/
inductive Run (step : σ → α → σ → Prop) : σ → List α → σ → Prop where
  /-- The empty run. -/
  | nil (s : σ) : Run step s [] s
  /-- Extend a run by one more event. -/
  | snoc {s t u : σ} {l : List α} {a : α} : Run step s l t → step t a u → Run step s (l ++ [a]) u

variable {step : σ → α → σ → Prop}

/-- A run of one event. -/
theorem Run.single {s t : σ} {a : α} (h : step s a t) : Run step s [a] t := by
  simpa using Run.snoc (Run.nil s) h

/-- Runs compose. -/
theorem Run.append {s t u : σ} {l₁ l₂ : List α} (h₁ : Run step s l₁ t) (h₂ : Run step t l₂ u) :
    Run step s (l₁ ++ l₂) u := by
  induction h₂ with
  | nil => simpa using h₁
  | snoc _ hstep ih => simpa [List.append_assoc] using Run.snoc ih hstep

/-- A property of the state and the history so far, which holds at the start and which every
event preserves, holds at the end of every run. -/
theorem Run.trace_induction {Q : σ → List α → Prop} {s u : σ} {l : List α}
    (h0 : Q s []) (hstep : ∀ t l a u, Q t l → step t a u → Q u (l ++ [a]))
    (h : Run step s l u) : Q u l := by
  induction h with
  | nil => exact h0
  | snoc _ hs ih => exact hstep _ _ _ _ ih hs

/-- The invariant rule: a state property that holds at the start and is preserved by every
event holds at the end of every run. -/
theorem Run.invariant {P : σ → Prop} {s u : σ} {l : List α} (h0 : P s)
    (hstep : ∀ t a u, P t → step t a u → P u) (h : Run step s l u) : P u :=
  Run.trace_induction (Q := fun t _ => P t) h0 (fun t _ a u ht hs => hstep t a u ht hs) h

/-- A run that starts with one more event. -/
theorem Run.cons {s t u : σ} {a : α} {l : List α} (hs : step s a t) (h : Run step t l u) :
    Run step s (a :: l) u := by
  simpa using Run.append (Run.single hs) h

/-- The empty run goes nowhere. -/
theorem Run.nil_inv {s t : σ} (h : Run step s [] t) : s = t := by
  generalize hl : ([] : List α) = l at h
  cases h with
  | nil => rfl
  | snoc _ _ => simp at hl

/-- The last event of a run, and the run before it. -/
theorem Run.snoc_inv {s u : σ} {l : List α} {a : α} (h : Run step s (l ++ [a]) u) :
    ∃ t, Run step s l t ∧ step t a u := by
  generalize hl : l ++ [a] = l' at h
  cases h with
  | nil => simp at hl
  | snoc h' hs =>
    obtain ⟨rfl, he⟩ := List.append_inj' hl rfl
    cases he
    exact ⟨_, h', hs⟩

section Det

-- the steps are a function of the state and the event
variable (hdet : ∀ s a t t', step s a t → step s a t' → t = t')
include hdet

/-- A deterministic system ends a run in one state. -/
theorem Run.det {s t t' : σ} {l : List α} (h : Run step s l t) (h' : Run step s l t') :
    t = t' := by
  induction h generalizing t' with
  | nil => exact Run.nil_inv h'
  | snoc _ hs ih =>
    obtain ⟨u', hu', hs'⟩ := h'.snoc_inv
    cases ih hu'
    exact hdet _ _ _ _ hs hs'

/-- In a deterministic system the events after a prefix run from where the prefix ends. -/
theorem Run.drop {s t u : σ} {l₁ l₂ : List α} (h : Run step s (l₁ ++ l₂) u)
    (h₁ : Run step s l₁ t) : Run step t l₂ u := by
  generalize hl : l₁ ++ l₂ = l at h
  induction h generalizing l₂ with
  | nil =>
    obtain ⟨rfl, rfl⟩ := List.append_eq_nil_iff.mp hl
    cases Run.nil_inv h₁
    exact Run.nil _
  | snoc hrun hs ih =>
    -- the last event is the last of the suffix, unless the suffix is empty
    rcases List.eq_nil_or_concat' l₂ with rfl | ⟨l₂, b, rfl⟩
    · rw [List.append_nil] at hl
      subst hl
      cases Run.det hdet h₁ (hrun.snoc hs)
      exact Run.nil _
    · rw [← List.append_assoc] at hl
      obtain ⟨rfl, he⟩ := List.append_inj' hl rfl
      cases he
      exact (ih rfl).snoc hs

end Det

/-- Feed the events of `l` one by one to a partial step function; `none` as soon as one of
them has no successor. -/
def replay (f : σ → α → Option σ) (s : σ) : List α → Option σ
  | [] => some s
  | a :: l => (f s a).bind fun t => replay f t l

/-- A successful replay is a run of the relation the step function computes. -/
theorem Run.of_replay {f : σ → α → Option σ} {s t : σ} {l : List α}
    (h : replay f s l = some t) : Run (fun s a t => f s a = some t) s l t := by
  induction l generalizing s with
  | nil =>
    simp only [replay, Option.some.injEq] at h
    subst h
    exact Run.nil _
  | cons a l ih =>
    simp only [replay, Option.bind_eq_some_iff] at h
    obtain ⟨t', hs, hl⟩ := h
    exact Run.cons hs (ih hl)

/-- A replay that ends is a run to where it ends: the form in which a run on given events is
stated and checked. -/
theorem Run.of_replay_isSome {f : σ → α → Option σ} {s : σ} {l : List α} (d : σ)
    (h : (replay f s l).isSome = true) :
    Run (fun s a t => f s a = some t) s l ((replay f s l).getD d) := by
  obtain ⟨t, ht⟩ := Option.isSome_iff_exists.mp h
  rw [ht]
  exact Run.of_replay ht

/-- Step functions that make related steps from related states make related replays: the
simulation rule for partial step functions. -/
theorem replay_rel {β : Type*} {f : σ → α → Option σ} {g : β → α → Option β} {R : σ → β → Prop}
    (hstep : ∀ s b a, R s b → Option.Rel R (f s a) (g b a)) {s : σ} {b : β} (h : R s b)
    (l : List α) : Option.Rel R (replay f s l) (replay g b l) := by
  induction l generalizing s b with
  | nil => exact Option.Rel.some h
  | cons a l ih =>
    simp only [replay]
    have hr := hstep s b a h
    revert hr
    cases f s a <;> cases g b a <;> intro hr
    · exact Option.Rel.none
    · cases hr
    · cases hr
    · cases hr with
      | some hr => exact ih hr

/-! ## The history since the last event of a kind -/

/-- The events of `l` after the last one satisfying `p` (all of `l` when there is none). -/
def sinceLast (p : α → Bool) (l : List α) : List α :=
  (l.reverse.takeWhile (fun a => !p a)).reverse

@[simp]
theorem sinceLast_nil (p : α → Bool) : sinceLast p ([] : List α) = [] := rfl

/-- An event of the kind restarts the history. -/
theorem sinceLast_append_of_pos (p : α → Bool) (l : List α) {a : α} (ha : p a = true) :
    sinceLast p (l ++ [a]) = [] := by
  simp [sinceLast, ha]

/-- Any other event is appended to the history. -/
theorem sinceLast_append_of_neg (p : α → Bool) (l : List α) {a : α} (ha : p a = false) :
    sinceLast p (l ++ [a]) = sinceLast p l ++ [a] := by
  simp [sinceLast, ha]

/-- What `f` reads off the last event of `l` it reads anything off. -/
def lastOf {β : Type*} (f : α → Option β) (l : List α) : Option β :=
  l.foldl (fun b a => (f a).or b) none

@[simp]
theorem lastOf_nil {β : Type*} (f : α → Option β) : lastOf f ([] : List α) = none := rfl

/-- A new event replaces the value when `f` reads one off it. -/
@[simp]
theorem lastOf_append_singleton {β : Type*} (f : α → Option β) (l : List α) (a : α) :
    lastOf f (l ++ [a]) = (f a).or (lastOf f l) := by
  simp [lastOf]

end Trace
