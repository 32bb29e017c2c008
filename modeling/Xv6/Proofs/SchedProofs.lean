import Xv6.Sched
import Xv6.Lib.Loop

/-!
# The priority scheduler picks the first slot of highest priority

`selectLoop` keeps the first `RUNNABLE` slot of highest priority among those it has seen
(`Champion`), since a later slot replaces the candidate only on a strictly higher priority. The
locked selection phase computes the same candidate, and after each round the CPU holds the
candidate's lock and no other (`ScanInv`): a slot's lock is taken once, and let go in the same
round unless the slot became the candidate, in which case it is let go when a better one
replaces it.
-/

namespace Xv6

/-! ## Spin locks -/

theorem acquire_of_not_holding {c : Nat} {lk : Spinlock} (h : holding c lk = false) :
    acquire c lk = .ok ⟨true, some c⟩ := by
  simp [acquire, h]

theorem release_held (c : Nat) : release c ⟨true, some c⟩ = .ok Spinlock.free := by
  simp [release, holding]

theorem Scan.acquire_ok {c : Nat} {s : Scan} {i : Fin NPROC} (h : holding c (s.locks i) = false) :
    s.acquire c i = .ok { s with
      locks := Function.update s.locks i ⟨true, some c⟩
      calls := s.calls ++ [.acquire i] } := by
  rw [Scan.acquire, acquire_of_not_holding h]
  rfl

theorem Scan.release_ok {c : Nat} {s : Scan} {i : Fin NPROC} (h : s.locks i = ⟨true, some c⟩) :
    s.release c i = .ok { s with
      locks := Function.update s.locks i Spinlock.free
      calls := s.calls ++ [.release i] } := by
  rw [Scan.release, h, release_held]
  rfl

/-! ## The candidate -/

/-- The slot the selection phase is for: `RUNNABLE`, of the highest priority among the
`RUNNABLE` slots, and the first of them. -/
def IsBest (t : PTable) (i : Fin NPROC) : Prop :=
  (t.proc i).state = .RUNNABLE ∧ ∀ j, (t.proc j).state = .RUNNABLE →
    (t.proc j).priority < (t.proc i).priority ∨
      ((t.proc j).priority = (t.proc i).priority ∧ i ≤ j)

/-- The candidate after the slots `done`: the best of their `RUNNABLE` slots, `none` when
there is none. -/
def Champion (t : PTable) (done : List (Fin NPROC)) : Option (Fin NPROC) → Prop
  | none => ∀ j ∈ done, (t.proc j).state ≠ .RUNNABLE
  | some i => i ∈ done ∧ (t.proc i).state = .RUNNABLE ∧ ∀ j ∈ done,
      (t.proc j).state = .RUNNABLE → (t.proc j).priority < (t.proc i).priority ∨
        ((t.proc j).priority = (t.proc i).priority ∧ i ≤ j)

theorem selectLoop_cons (t : PTable) (p : Fin NPROC) (rest : List (Fin NPROC))
    (high : Option (Fin NPROC)) :
    selectLoop t (p :: rest) high = selectLoop t rest (selectLoop t [p] high) := by
  simp only [selectLoop]
  split_ifs <;> rfl

theorem selectLoop_append (t : PTable) (l₁ l₂ : List (Fin NPROC)) (high : Option (Fin NPROC)) :
    selectLoop t (l₁ ++ l₂) high = selectLoop t l₂ (selectLoop t l₁ high) := by
  induction l₁ generalizing high with
  | nil => rfl
  | cons p rest ih => rw [List.cons_append, selectLoop_cons, ih, ← selectLoop_cons]

/-- One slot `p` after the slots `done`, all before it. -/
theorem Champion.step {t : PTable} {done : List (Fin NPROC)} {high : Option (Fin NPROC)}
    (h : Champion t done high) {p : Fin NPROC} (hlt : ∀ j ∈ done, j < p) :
    Champion t (done ++ [p]) (selectLoop t [p] high) := by
  by_cases hp : (t.proc p).state = .RUNNABLE
  · cases high with
    | none =>
      -- the first `RUNNABLE` slot
      simp only [selectLoop, hp, true_and, if_true]
      refine ⟨by simp, hp, fun j hj hjr => ?_⟩
      rcases List.mem_append.mp hj with hj | hj
      · exact absurd hjr (h j hj)
      · rw [List.mem_singleton.mp hj]
        exact .inr ⟨rfl, le_rfl⟩
    | some i =>
      obtain ⟨hi, hir, hbest⟩ := h
      by_cases hlt' : (t.proc i).priority < (t.proc p).priority
      · -- a strictly higher priority replaces the candidate
        simp only [selectLoop, hp, decide_eq_true hlt', and_self, if_true]
        refine ⟨by simp, hp, fun j hj hjr => ?_⟩
        rcases List.mem_append.mp hj with hj | hj
        · rcases hbest j hj hjr with hj' | ⟨hj', -⟩
          · exact .inl (lt_trans hj' hlt')
          · exact .inl (hj' ▸ hlt')
        · exact .inr ⟨by rw [List.mem_singleton.mp hj], by rw [List.mem_singleton.mp hj]⟩
      · -- an equal or lower priority keeps it, and it comes first
        simp only [selectLoop, hp, decide_eq_false hlt']
        refine ⟨List.mem_append_left _ hi, hir, fun j hj hjr => ?_⟩
        rcases List.mem_append.mp hj with hj | hj
        · exact hbest j hj hjr
        · rw [List.mem_singleton.mp hj]
          rcases lt_or_eq_of_le (not_lt.mp hlt') with hle | heq
          · exact .inl hle
          · exact .inr ⟨heq, le_of_lt (hlt i hi)⟩
  · have hkeep : selectLoop t [p] high = high := by
      cases high <;> simp [selectLoop, hp]
    rw [hkeep]
    cases high with
    | none =>
      intro j hj
      rcases List.mem_append.mp hj with hj | hj
      · exact h j hj
      · rwa [List.mem_singleton.mp hj]
    | some i =>
      obtain ⟨hi, hir, hbest⟩ := h
      refine ⟨List.mem_append_left _ hi, hir, fun j hj hjr => ?_⟩
      rcases List.mem_append.mp hj with hj | hj
      · exact hbest j hj hjr
      · exact absurd (List.mem_singleton.mp hj ▸ hjr) hp

/-- A loop over slots in increasing order ends on the best of them. -/
theorem champion_selectLoop (t : PTable) {l : List (Fin NPROC)} (hl : l.Pairwise (· < ·)) :
    Champion t l (selectLoop t l none) := by
  -- induction on the slots still to scan, after `done`
  suffices h : ∀ rest done high, (done ++ rest).Pairwise (· < ·) → Champion t done high →
      Champion t (done ++ rest) (selectLoop t rest high) from
    h l [] none hl (fun _ hj => absurd hj List.not_mem_nil)
  intro rest
  induction rest with
  | nil =>
    intro done high _ h
    rwa [List.append_nil]
  | cons p rest ih =>
    intro done high hsorted h
    have hlt : ∀ j ∈ done, j < p := fun j hj =>
      (List.pairwise_append.mp hsorted).2.2 j hj p List.mem_cons_self
    have hsorted' : ((done ++ [p]) ++ rest).Pairwise (· < ·) := by
      rwa [List.append_assoc, List.singleton_append]
    rw [selectLoop_cons, ← List.singleton_append, ← List.append_assoc]
    exact ih (done ++ [p]) _ hsorted' (h.step hlt)

theorem IsBest.unique {t : PTable} {i i' : Fin NPROC} (h : IsBest t i) (h' : IsBest t i') :
    i = i' := by
  rcases h.2 i' h'.1 with hlt | ⟨heq, hle⟩
  · rcases h'.2 i h.1 with hlt' | ⟨heq', -⟩
    · exact absurd (lt_trans hlt hlt') (lt_irrefl _)
    · exact absurd (heq' ▸ hlt) (lt_irrefl _)
  · rcases h'.2 i h.1 with hlt' | ⟨-, hle'⟩
    · exact absurd (heq ▸ hlt') (lt_irrefl _)
    · exact le_antisymm hle hle'

theorem selectLoop_slots_some_iff (t : PTable) (i : Fin NPROC) :
    selectLoop t slots none = some i ↔ IsBest t i := by
  have hc : Champion t slots (selectLoop t slots none) :=
    champion_selectLoop t (List.pairwise_lt_finRange NPROC)
  have hbest : ∀ i', selectLoop t slots none = some i' → IsBest t i' := by
    intro i' he
    rw [he] at hc
    obtain ⟨-, hir, hall⟩ := hc
    exact ⟨hir, fun j hj => hall j (List.mem_finRange j) hj⟩
  constructor
  · exact hbest i
  · intro hi
    cases he : selectLoop t slots none with
    | none =>
      rw [he] at hc
      exact absurd hi.1 (hc i (List.mem_finRange i))
    | some i' => rw [hi.unique (hbest i' he)]

theorem selectLoop_slots_none_iff (t : PTable) :
    selectLoop t slots none = none ↔ ∀ i, (t.proc i).state ≠ .RUNNABLE := by
  have hc : Champion t slots (selectLoop t slots none) :=
    champion_selectLoop t (List.pairwise_lt_finRange NPROC)
  constructor
  · intro he i
    rw [he] at hc
    exact hc i (List.mem_finRange i)
  · intro hall
    cases he : selectLoop t slots none with
    | none => rfl
    | some i =>
      rw [he] at hc
      exact absurd hc.2.1 (hall i)

/-! ## The locks of the selection phase -/

theorem selectLoop_mem {t : PTable} {l : List (Fin NPROC)} {i : Fin NPROC}
    (h : selectLoop t l none = some i) : i ∈ l := by
  -- the candidate is the start or a slot of the list
  suffices hg : ∀ high, selectLoop t l high = some i → high = some i ∨ i ∈ l from
    (hg none h).resolve_left (by simp)
  clear h
  induction l with
  | nil => exact fun high hh => .inl hh
  | cons p rest ih =>
    intro high hh
    rw [selectLoop_cons] at hh
    rcases ih _ hh with hp | hr
    · have hone : selectLoop t [p] high = high ∨ selectLoop t [p] high = some p := by
        cases high <;> simp only [selectLoop] <;> split_ifs <;> simp
      rcases hone with e | e
      · exact .inl (e ▸ hp)
      · rw [e] at hp
        cases hp
        exact .inr List.mem_cons_self
    · exact .inr (List.mem_cons_of_mem _ hr)

/-- The selection phase after the slots `done`: the candidate is that of `selectLoop`, the CPU
holds its lock and every other lock is free, each slot done was acquired once, and released
once unless it is the candidate. -/
structure ScanInv (c : Nat) (t : PTable) (done : List (Fin NPROC)) (s : Scan) : Prop where
  high : s.high = selectLoop t done none
  locks : ∀ i, s.locks i = if s.high = some i then ⟨true, some c⟩ else Spinlock.free
  acquired : ∀ i, s.calls.count (.acquire i) = done.count i
  released : ∀ i, s.calls.count (.release i) = done.count i - if s.high = some i then 1 else 0

theorem ScanInv.start (c : Nat) (t : PTable) : ScanInv c t [] ⟨fun _ => Spinlock.free, none, []⟩ :=
  ⟨rfl, fun _ => by simp, fun _ => rfl, fun _ => rfl⟩

section Round

variable {c : Nat} {t : PTable} {done : List (Fin NPROC)} {s : Scan} {p : Fin NPROC}

/-- The first `RUNNABLE` slot becomes the candidate and keeps its lock. -/
theorem ScanInv.takeFirst (h : ScanInv c t done s) (hp : p ∉ done) (hh : s.high = none)
    (hrun : (t.proc p).state = .RUNNABLE) :
    ScanInv c t (done ++ [p]) ⟨Function.update s.locks p ⟨true, some c⟩, some p,
      s.calls ++ [.acquire p]⟩ := by
  have hcount : done.count p = 0 := List.count_eq_zero.mpr hp
  refine ⟨?_, fun i => ?_, fun i => ?_, fun i => ?_⟩
  · rw [selectLoop_append, ← h.high, hh]
    simp [selectLoop, hrun]
  · by_cases hi : i = p
    · subst hi
      simp
    · simp [Function.update_of_ne hi, h.locks i, hh, Ne.symm hi]
  · simp [h.acquired i, List.count_cons]
  · by_cases hi : i = p
    · subst hi
      simp [h.released, hh, hcount]
    · simp [h.released i, hh, Ne.symm hi]

/-- A slot of strictly higher priority becomes the candidate; the old candidate's lock goes. -/
theorem ScanInv.takeBetter (h : ScanInv c t done s) (hnd : done.Nodup) (hp : p ∉ done)
    {j : Fin NPROC} (hh : s.high = some j) (hrun : (t.proc p).state = .RUNNABLE)
    (hbetter : (t.proc j).priority < (t.proc p).priority) :
    ScanInv c t (done ++ [p]) ⟨Function.update (Function.update s.locks p ⟨true, some c⟩) j
      Spinlock.free, some p, s.calls ++ [.acquire p] ++ [.release j]⟩ := by
  have hcount : done.count p = 0 := List.count_eq_zero.mpr hp
  have hj : j ∈ done := selectLoop_mem (h.high ▸ hh)
  have hjp : j ≠ p := fun e => hp (e ▸ hj)
  have hjc : done.count j = 1 := List.count_eq_one_of_mem hnd hj
  refine ⟨?_, fun i => ?_, fun i => ?_, fun i => ?_⟩
  · rw [selectLoop_append, ← h.high, hh]
    simp [selectLoop, hrun, hbetter]
  · by_cases hij : i = j
    · subst hij
      simp [Ne.symm hjp]
    · by_cases hi : i = p
      · subst hi
        simp [hij]
      · simp [Function.update_of_ne hi, Function.update_of_ne hij, h.locks i, hh, Ne.symm hi,
          Ne.symm hij]
  · simp [h.acquired i, List.count_cons]
  · by_cases hij : i = j
    · subst hij
      simp [h.released, hh, List.count_cons, hjc]
    · by_cases hi : i = p
      · subst hi
        simp [h.released, hh, hcount, hjp]
      · simp [h.released i, hh, Ne.symm hi, Ne.symm hij]

/-- A slot that does not become the candidate: its lock goes at once. -/
theorem ScanInv.pass (h : ScanInv c t done s) (hp : p ∉ done)
    (hkeep : selectLoop t [p] s.high = s.high) :
    ScanInv c t (done ++ [p]) ⟨Function.update (Function.update s.locks p ⟨true, some c⟩) p
      Spinlock.free, s.high, s.calls ++ [.acquire p] ++ [.release p]⟩ := by
  have hcount : done.count p = 0 := List.count_eq_zero.mpr hp
  have hnot : s.high ≠ some p := fun e => hp (selectLoop_mem (h.high ▸ e))
  refine ⟨?_, fun i => ?_, fun i => ?_, fun i => ?_⟩
  · rw [selectLoop_append, ← h.high, hkeep]
  · by_cases hi : i = p
    · subst hi
      simp [hnot]
    · simp [Function.update_of_ne hi, h.locks i]
  · simp [h.acquired i, List.count_cons]
  · by_cases hi : i = p
    · subst hi
      simp [h.released, hnot, hcount]
    · simp [h.released i, Ne.symm hi]

/-- One round, at a slot not done yet. -/
theorem ScanInv.round (h : ScanInv c t done s) (hnd : done.Nodup) (hp : p ∉ done) :
    ∃ s', selectRound c t s p = .ok s' ∧ ScanInv c t (done ++ [p]) s' := by
  have hnot : s.high ≠ some p := fun e => hp (selectLoop_mem (h.high ▸ e))
  have hfree : holding c (s.locks p) = false := by rw [h.locks p, if_neg hnot]; rfl
  rw [selectRound, Scan.acquire_ok hfree, Loop.ok_bind]
  by_cases hrun : (t.proc p).state = .RUNNABLE
  · rcases hh : s.high with _ | j
    · refine ⟨_, ?_, h.takeFirst hp hh hrun⟩
      simp [hrun]
    · have hj : s.locks j = ⟨true, some c⟩ := by rw [h.locks j, if_pos hh]
      have hjp : j ≠ p := fun e => hnot (e ▸ hh)
      by_cases hbetter : (t.proc j).priority < (t.proc p).priority
      · refine ⟨_, ?_, h.takeBetter hnd hp hh hrun hbetter⟩
        simp only [hrun, hbetter, decide_true, if_true]
        rw [Scan.release_ok (by simpa [Function.update_of_ne hjp] using hj)]
        rfl
      · have hkeep : selectLoop t [p] s.high = s.high := by
          simp [selectLoop, hh, hbetter]
        refine ⟨_, ?_, h.pass hp hkeep⟩
        simp only [hrun, hh, hbetter, decide_false, Bool.false_eq_true, if_false, if_true]
        rw [Scan.release_ok (by simp)]
  · have hkeep : selectLoop t [p] s.high = s.high := by
      cases s.high <;> simp [selectLoop, hrun]
    refine ⟨_, ?_, h.pass hp hkeep⟩
    simp only [hrun, if_false]
    rw [Scan.release_ok (by simp)]

end Round

/-- The whole selection phase, from free locks. -/
theorem selectPhase_inv (c : Nat) (t : PTable) :
    ∃ s, selectPhase c t (fun _ => Spinlock.free) = .ok s ∧ ScanInv c t slots s := by
  refine Loop.foldlM_list (fun done s => ScanInv c t done s) slots ?_ _ (ScanInv.start c t)
  intro done p rest s hl h
  have hnd : (done ++ p :: rest).Nodup := hl ▸ List.nodup_finRange NPROC
  obtain ⟨hdone, -, hdisj⟩ := List.nodup_append.mp hnd
  exact h.round hdone fun hp => hdisj p hp p List.mem_cons_self rfl

theorem count_slots (i : Fin NPROC) : slots.count i = 1 :=
  List.count_eq_one_of_mem (List.nodup_finRange NPROC) (List.mem_finRange i)

theorem runPhase_proc (t : PTable) (high : Option (Fin NPROC)) (i : Fin NPROC) :
    (runPhase t high).1.proc i =
      if high = some i then { t.proc i with state := .RUNNING } else t.proc i := by
  cases high with
  | none => simp [runPhase]
  | some p =>
    by_cases hi : i = p
    · subst hi
      simp [runPhase]
    · simp [runPhase, hi, Ne.symm hi]

theorem runPhase_cpu (t : PTable) (high : Option (Fin NPROC)) : (runPhase t high).2 = high := by
  cases high <;> rfl

/-- The locked round does what the atomic `scheduler` step of the process table does. -/
theorem ScanInv.runPhase_eq_scheduler {c : Nat} {t : PTable} {s : Scan} (h : ScanInv c t slots s) :
    (runPhase t s.high).1 = scheduler t := by
  rw [h.high, scheduler]
  cases selectLoop t slots none <;> rfl

/-- One round of `scheduler()` on CPU `c` with every proc lock free: the selection phase ends
on the first `RUNNABLE` slot of highest priority (none when no slot is `RUNNABLE`), holding its
lock and no other, having taken each lock once and let go once every lock but the candidate's;
the execution phase makes exactly that slot `RUNNING` and `c->proc`. -/
theorem scheduler_selects_first_best (c : Nat) (t : PTable) :
    ∃ s, selectPhase c t (fun _ => Spinlock.free) = .ok s ∧
      (∀ i, s.high = some i ↔ IsBest t i) ∧
      (s.high = none ↔ ∀ i, (t.proc i).state ≠ .RUNNABLE) ∧
      (∀ i, s.locks i = if s.high = some i then ⟨true, some c⟩ else Spinlock.free) ∧
      (∀ i, s.calls.count (.acquire i) = 1 ∧
        s.calls.count (.release i) = if s.high = some i then 0 else 1) ∧
      (runPhase t s.high).2 = s.high ∧
      ∀ i, (runPhase t s.high).1.proc i =
        if s.high = some i then { t.proc i with state := .RUNNING } else t.proc i := by
  obtain ⟨s, hrun, h⟩ := selectPhase_inv c t
  refine ⟨s, hrun, fun i => ?_, ?_, h.locks, fun i => ⟨?_, ?_⟩, runPhase_cpu t s.high,
    runPhase_proc t s.high⟩
  · rw [h.high]
    exact selectLoop_slots_some_iff t i
  · rw [h.high]
    exact selectLoop_slots_none_iff t
  · rw [h.acquired, count_slots]
  · rw [h.released, count_slots]
    split_ifs <;> rfl

end Xv6
