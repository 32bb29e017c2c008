import Mathlib

/-!
# Programs that only write, and where they can crash

A device is a memory `κ → β` that changes only by writing a whole cell. A program that only
writes is a list of commands; each command looks at the memory as it finds it and picks the
cell it writes and the new contents (so a copy reads its source when it runs). Running the
program issues a list of writes, and a crash that lets the first `k` of them reach the device
leaves the memory with exactly those applied (`crashAt`).

The lemmas split crash points along `++` (`crashAt_append`), give the frame rule for cells no
write touches (`applyW_other`, `exec_other`), and the rule that proves a property of every crash
point from one preserved by each command (`crashAt_of_cmd`).
-/

namespace Writes

variable {κ β : Type*} [DecidableEq κ]

/-- Apply writes in order. -/
def applyW : List (κ × β) → (κ → β) → κ → β
  | [], m => m
  | w :: ws, m => applyW ws (Function.update m w.1 w.2)

/-- A write computed from the memory it runs on: the cell and the new contents. -/
abbrev Cmd (κ β : Type*) := (κ → β) → κ × β

/-- One command run on `m`. -/
def Cmd.run (c : Cmd κ β) (m : κ → β) : κ → β := Function.update m (c m).1 (c m).2

/-- The writes that running `cs` from `m` issues, in order. -/
def issue : List (Cmd κ β) → (κ → β) → List (κ × β)
  | [], _ => []
  | c :: cs, m => c m :: issue cs (c.run m)

/-- The memory after all of `cs`. -/
def exec (cs : List (Cmd κ β)) (m : κ → β) : κ → β := applyW (issue cs m) m

/-- The memory after a crash that let the first `k` writes of `cs` through. -/
def crashAt (cs : List (Cmd κ β)) (k : Nat) (m : κ → β) : κ → β :=
  applyW ((issue cs m).take k) m

@[simp]
theorem applyW_nil (m : κ → β) : applyW [] m = m := rfl

@[simp]
theorem applyW_cons (w : κ × β) (ws : List (κ × β)) (m : κ → β) :
    applyW (w :: ws) m = applyW ws (Function.update m w.1 w.2) := rfl

theorem applyW_append (ws vs : List (κ × β)) (m : κ → β) :
    applyW (ws ++ vs) m = applyW vs (applyW ws m) := by
  induction ws generalizing m with
  | nil => rfl
  | cons w ws ih => exact ih _

/-- A cell that no write names keeps its contents. -/
theorem applyW_other {ws : List (κ × β)} {x : κ} (h : ∀ p ∈ ws, p.1 ≠ x) (m : κ → β) :
    applyW ws m x = m x := by
  induction ws generalizing m with
  | nil => rfl
  | cons w ws ih =>
    rw [applyW_cons, ih (fun p hp => h p (List.mem_cons_of_mem _ hp))]
    exact Function.update_of_ne (h w List.mem_cons_self).symm _ _

@[simp]
theorem issue_nil (m : κ → β) : issue ([] : List (Cmd κ β)) m = [] := rfl

@[simp]
theorem issue_cons (c : Cmd κ β) (cs : List (Cmd κ β)) (m : κ → β) :
    issue (c :: cs) m = c m :: issue cs (c.run m) := rfl

@[simp]
theorem length_issue (cs : List (Cmd κ β)) (m : κ → β) : (issue cs m).length = cs.length := by
  induction cs generalizing m with
  | nil => rfl
  | cons c cs ih => simp [ih]

@[simp]
theorem exec_nil (m : κ → β) : exec ([] : List (Cmd κ β)) m = m := rfl

@[simp]
theorem exec_cons (c : Cmd κ β) (cs : List (Cmd κ β)) (m : κ → β) :
    exec (c :: cs) m = exec cs (c.run m) := rfl

/-- Every issued write is what one of the commands computed on some memory. -/
theorem mem_issue {cs : List (Cmd κ β)} {m : κ → β} {p : κ × β} (hp : p ∈ issue cs m) :
    ∃ c ∈ cs, ∃ m', c m' = p := by
  induction cs generalizing m with
  | nil => cases hp
  | cons c cs ih =>
    rcases List.mem_cons.mp hp with rfl | hp
    · exact ⟨c, List.mem_cons_self, m, rfl⟩
    · obtain ⟨c', hc', m', he⟩ := ih hp
      exact ⟨c', List.mem_cons_of_mem _ hc', m', he⟩

/-- The frame rule for programs: a cell no command ever writes keeps its contents. -/
theorem exec_other {cs : List (Cmd κ β)} {x : κ} (h : ∀ c ∈ cs, ∀ m, (c m).1 ≠ x) (m : κ → β) :
    exec cs m x = m x := by
  apply applyW_other
  intro p hp
  obtain ⟨c, hc, m', rfl⟩ := mem_issue hp
  exact h c hc m'

theorem issue_append (cs ds : List (Cmd κ β)) (m : κ → β) :
    issue (cs ++ ds) m = issue cs m ++ issue ds (exec cs m) := by
  induction cs generalizing m with
  | nil => rfl
  | cons c cs ih => simp [ih]

theorem exec_append (cs ds : List (Cmd κ β)) (m : κ → β) :
    exec (cs ++ ds) m = exec ds (exec cs m) := by
  rw [exec, issue_append, applyW_append]
  rfl

@[simp]
theorem crashAt_zero (cs : List (Cmd κ β)) (m : κ → β) : crashAt cs 0 m = m := rfl

@[simp]
theorem crashAt_nil (k : Nat) (m : κ → β) : crashAt ([] : List (Cmd κ β)) k m = m := by
  simp [crashAt]

theorem crashAt_cons_succ (c : Cmd κ β) (cs : List (Cmd κ β)) (k : Nat) (m : κ → β) :
    crashAt (c :: cs) (k + 1) m = crashAt cs k (c.run m) := rfl

/-- A one-write program has two crash points: before the write and after it. -/
theorem crashAt_singleton (c : Cmd κ β) (k : Nat) (m : κ → β) :
    crashAt [c] k m = if k = 0 then m else c.run m := by
  cases k with
  | zero => rfl
  | succ k =>
    rw [if_neg (Nat.succ_ne_zero k), crashAt_cons_succ, crashAt_nil]

/-- A crash point of `cs ++ ds` is one of `cs`, or one of `ds` run after all of `cs`. -/
theorem crashAt_append (cs ds : List (Cmd κ β)) (k : Nat) (m : κ → β) :
    crashAt (cs ++ ds) k m =
      if k ≤ cs.length then crashAt cs k m else crashAt ds (k - cs.length) (exec cs m) := by
  unfold crashAt
  rw [issue_append, List.take_append]
  split_ifs with hk
  · rw [length_issue, Nat.sub_eq_zero_of_le hk, List.take_zero, List.append_nil]
  · rw [List.take_of_length_le (l := issue cs m) (by simp; omega), applyW_append, length_issue]
    rfl

/-- Every crash point of `cs ++ ds` satisfies `Q` when those of each part do. -/
theorem crashAt_append_of {Q : (κ → β) → Prop} {cs ds : List (Cmd κ β)} {m : κ → β}
    (h₁ : ∀ k, Q (crashAt cs k m)) (h₂ : ∀ k, Q (crashAt ds k (exec cs m))) (k : Nat) :
    Q (crashAt (cs ++ ds) k m) := by
  rw [crashAt_append]
  split_ifs
  · exact h₁ k
  · exact h₂ _

/-- The invariant rule for crash points: a property of the memory that every command of `cs`
preserves holds at every crash point and at the end. -/
theorem crashAt_of_cmd {Q : (κ → β) → Prop} {cs : List (Cmd κ β)}
    (hstep : ∀ c ∈ cs, ∀ m, Q m → Q (c.run m)) {m : κ → β} (hm : Q m) :
    (∀ k, Q (crashAt cs k m)) ∧ Q (exec cs m) := by
  induction cs generalizing m with
  | nil => exact ⟨fun k => by simpa [crashAt] using hm, hm⟩
  | cons c cs ih =>
    have hc : Q (c.run m) := hstep c List.mem_cons_self m hm
    obtain ⟨hk, hend⟩ := ih (fun d hd => hstep d (List.mem_cons_of_mem _ hd)) hc
    refine ⟨fun k => ?_, hend⟩
    cases k with
    | zero => exact hm
    | succ k => rw [crashAt_cons_succ]; exact hk k

end Writes
