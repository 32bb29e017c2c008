import Xv6.Proofs.ProcProofs

/-!
# The process tree and reaping

Along every run of the process table from `userinit`, every process other than `initproc`
that has started and not yet been reaped has a parent that is alive: `kfork` gives the child
its running caller, and `kexit` hands the children of the exiting process to `initproc`, which
never exits, before it becomes `ZOMBIE` (`TreeInv`). A `ZOMBIE` leaves the table only through a
`kwait` of its parent whose copy of the status succeeds (`PStep.zombie_freed`), and the status it
holds, which that `kwait` stores, is the one of its last `kexit` (`zombie_status_last_exit`).

One pass of `kwait` is a search for the first `ZOMBIE` child (`kwaitLoop_eq`). The scan reaps
that child before it looks at `killed`, so a killed parent with a `ZOMBIE` child gets the
child's pid, not `-1`.
-/

namespace Xv6

/-! ## Phases of a slot -/

/-- What the tree reads of a state: a free slot, one that `allocproc` is setting up, a process
that is alive, or a dead one waiting for its parent. -/
inductive Phase where
  | free | setup | alive | dead
  deriving DecidableEq, Repr

/-- The phase of each `procstate`. -/
def Procstate.phase : Procstate → Phase
  | .UNUSED => .free
  | .USED => .setup
  | .SLEEPING | .RUNNABLE | .RUNNING => .alive
  | .ZOMBIE => .dead

@[simp]
theorem Procstate.phase_eq_free (s : Procstate) : s.phase = .free ↔ s = .UNUSED := by
  cases s <;> decide

@[simp]
theorem Procstate.phase_eq_dead (s : Procstate) : s.phase = .dead ↔ s = .ZOMBIE := by
  cases s <;> decide

/-- `c` is a child of `p` that has exited and waits to be reaped. -/
def PTable.ZombieChild (t : PTable) (p c : Fin NPROC) : Prop :=
  (t.proc c).parent = some p ∧ (t.proc c).state = .ZOMBIE

instance (t : PTable) (p c : Fin NPROC) : Decidable (t.ZombieChild p c) :=
  inferInstanceAs (Decidable ((t.proc c).parent = some p ∧ (t.proc c).state = .ZOMBIE))

@[simp]
theorem PTable.set_set (t : PTable) (i : Fin NPROC) (p q : Proc) : (t.set i p).set i q = t.set i q := by
  simp [PTable.set]

/-! ## Relations between tables, slot by slot

The operations of the table write a few fields of a few slots. A relation that compares two
tables slot by slot, by a relation `R` between a slot before and after, is kept by an operation
once `R` relates each slot to what the operation makes of it. The lemmas below say what each
operation writes, once for every such `R`; the relations of the invariants (`SameTree`,
`KeepsStatus`, and the memory's `SameMem`) are instances. -/

/-- `R` relates each slot of `t` to the same slot of `t'`. -/
def Slotwise (R : Proc → Proc → Prop) (t t' : PTable) : Prop :=
  ∀ i, R (t.proc i) (t'.proc i)

namespace Slotwise

variable {R : Proc → Proc → Prop}

theorem refl (hR : ∀ q, R q q) (t : PTable) : Slotwise R t t := fun i => hR (t.proc i)

theorem trans (hR : ∀ a b c, R a b → R b c → R a c) {t₁ t₂ t₃ : PTable}
    (h₁ : Slotwise R t₁ t₂) (h₂ : Slotwise R t₂ t₃) : Slotwise R t₁ t₃ :=
  fun i => hR _ _ _ (h₁ i) (h₂ i)

/-- Writing one slot with a value `R` relates to the old one. -/
theorem set (hR : ∀ q, R q q) (t : PTable) (i : Fin NPROC) {q : Proc} (hq : R (t.proc i) q) :
    Slotwise R t (t.set i q) := by
  intro j
  by_cases hj : j = i
  · subst hj
    rw [PTable.set_proc_self]
    exact hq
  · rw [PTable.set_proc_of_ne _ _ hj]
    exact hR _

/-- `wakeup` makes some sleepers runnable and leaves every other slot. -/
theorem wakeup (hR : ∀ q, R q q)
    (hwake : ∀ q, q.state = .SLEEPING → R q { q with state := .RUNNABLE }) (t : PTable)
    (me : Option (Fin NPROC)) (chan : Option Chan) : Slotwise R t (Xv6.wakeup t me chan) := by
  intro i
  simp only [Xv6.wakeup]
  split
  · rename_i h
    exact hwake _ h.2.1
  · exact hR _

/-- `reparent` hands children to `initproc` and wakes it each time. -/
theorem reparentLoop (hR : ∀ q, R q q) (htrans : ∀ a b c, R a b → R b c → R a c)
    (hpar : ∀ q, R q { q with parent := some initproc })
    (hwake : ∀ q, q.state = .SLEEPING → R q { q with state := .RUNNABLE }) (p : Fin NPROC)
    (l : List (Fin NPROC)) (t : PTable) : Slotwise R t (Xv6.reparentLoop p l t) := by
  induction l generalizing t with
  | nil => exact refl hR t
  | cons c rest ih =>
    simp only [Xv6.reparentLoop]
    split
    · exact ((set hR t c (hpar _)).trans htrans (wakeup hR hwake _ _ _)).trans htrans (ih _)
    · exact ih t

/-- `kkill` sets the kill flag of the slot it finds, and wakes it if it sleeps. -/
theorem kkillLoop (hR : ∀ q, R q q)
    (hkill : ∀ q, q.state ≠ .SLEEPING → R q { q with killed := 1 })
    (hwake : ∀ q, q.state = .SLEEPING → R q { q with killed := 1, state := .RUNNABLE })
    (pid : Int) (l : List (Fin NPROC)) (t : PTable) :
    Slotwise R t (Xv6.kkillLoop pid l t).1 := by
  induction l with
  | nil => exact refl hR t
  | cons i rest ih =>
    simp only [Xv6.kkillLoop]
    split
    · apply set hR
      split
      · exact hwake _ ‹_›
      · exact hkill _ ‹_›
    · exact ih

/-- The scheduler runs a runnable slot, if there is one. -/
theorem scheduler (hR : ∀ q, R q q)
    (hrun : ∀ q, q.state = .RUNNABLE → R q { q with state := .RUNNING }) (t : PTable) :
    Slotwise R t (Xv6.scheduler t) := by
  unfold Xv6.scheduler
  split
  · exact refl hR t
  · rename_i i hi
    rcases selectLoop_runnable t slots none hi with e | e
    · cases e
    · exact set hR t i (hrun _ e)

end Slotwise

/-! ## Tables with the same tree -/

/-- What `SameTree` compares in a slot: its parent and the phase of its state. -/
def TreeKept (q q' : Proc) : Prop := q'.parent = q.parent ∧ q'.state.phase = q.state.phase

theorem TreeKept.refl (q : Proc) : TreeKept q q := ⟨rfl, rfl⟩

/-- `t'` has the same parents and the same phases as `t`: `Slotwise TreeKept t t'`. -/
def SameTree (t t' : PTable) : Prop :=
  ∀ i, (t'.proc i).parent = (t.proc i).parent ∧ (t'.proc i).state.phase = (t.proc i).state.phase

theorem SameTree.refl (t : PTable) : SameTree t t := fun _ => ⟨rfl, rfl⟩

theorem SameTree.trans {t₁ t₂ t₃ : PTable} (h₁ : SameTree t₁ t₂) (h₂ : SameTree t₂ t₃) :
    SameTree t₁ t₃ :=
  fun i => ⟨(h₂ i).1.trans (h₁ i).1, (h₂ i).2.trans (h₁ i).2⟩

/-- Writing a slot with the same parent and a state of the same phase. -/
theorem SameTree.set (t : PTable) (i : Fin NPROC) (q : Proc) (hpar : q.parent = (t.proc i).parent)
    (hph : q.state.phase = (t.proc i).state.phase) : SameTree t (t.set i q) :=
  Slotwise.set TreeKept.refl t i ⟨hpar, hph⟩

/-- `sleep` and `yield`: a running slot goes to another alive state. -/
theorem SameTree.setRunning (t : PTable) {i : Fin NPROC} (q : Proc) (hi : t.Running i)
    (hpar : q.parent = (t.proc i).parent) (hq : q.state.phase = .alive) : SameTree t (t.set i q) :=
  SameTree.set t i q hpar (by rw [hq, show (t.proc i).state = .RUNNING from hi]; rfl)

-- `wakeup`, `kkill` and the scheduler only move slots between alive states
theorem SameTree.wakeup (t : PTable) (me : Option (Fin NPROC)) (chan : Option Chan) :
    SameTree t (Xv6.wakeup t me chan) :=
  Slotwise.wakeup TreeKept.refl (fun _ hq => ⟨rfl, by simp [hq, Procstate.phase]⟩) t me chan

theorem SameTree.kkillLoop (pid : Int) (l : List (Fin NPROC)) (t : PTable) :
    SameTree t (Xv6.kkillLoop pid l t).1 :=
  Slotwise.kkillLoop TreeKept.refl (fun _ _ => ⟨rfl, rfl⟩)
    (fun _ hq => ⟨rfl, by simp [hq, Procstate.phase]⟩) pid l t

theorem SameTree.scheduler (t : PTable) : SameTree t (Xv6.scheduler t) :=
  Slotwise.scheduler TreeKept.refl (fun _ hq => ⟨rfl, by simp [hq, Procstate.phase]⟩) t

/-! ## The invariant -/

/-- The process tree: `initproc` is alive and has no parent, a free slot has no parent, and
every other process that has started and not been reaped has a parent that is alive. -/
structure TreeInv (t : PTable) : Prop where
  init_alive : (t.proc initproc).state.phase = .alive
  init_parent : (t.proc initproc).parent = none
  free_parent : ∀ i, (t.proc i).state = .UNUSED → (t.proc i).parent = none
  parent_alive : ∀ i, i ≠ initproc →
    (t.proc i).state.phase = .alive ∨ (t.proc i).state.phase = .dead →
    ∃ q, (t.proc i).parent = some q ∧ (t.proc q).state.phase = .alive

theorem TreeInv.of_same {t t' : PTable} (hs : TreeInv t) (h : SameTree t t') : TreeInv t' := by
  refine ⟨(h _).2.trans hs.init_alive, (h _).1.trans hs.init_parent, fun i hi => ?_,
    fun i hi hst => ?_⟩
  · have hph := (h i).2
    rw [hi] at hph
    rw [(h i).1]
    exact hs.free_parent i ((Procstate.phase_eq_free _).mp hph.symm)
  · rw [(h i).2] at hst
    obtain ⟨q, hq, hqa⟩ := hs.parent_alive i hi hst
    exact ⟨q, (h i).1.trans hq, (h q).2.trans hqa⟩

/-- Only an alive slot can be `initproc`. -/
theorem TreeInv.ne_initproc {t : PTable} (hs : TreeInv t) {i : Fin NPROC}
    (h : (t.proc i).state.phase ≠ .alive) : i ≠ initproc := by
  rintro rfl
  exact h hs.init_alive

/-- Writing one slot keeps the tree when `initproc` stays alive and parentless, a free slot
gets no parent, a started process gets an alive parent, and a slot that stops being alive has
no children left. -/
theorem TreeInv.set {t : PTable} (hs : TreeInv t) (i : Fin NPROC) (r : Proc)
    (hinit : i = initproc → r.state.phase = .alive ∧ r.parent = none)
    (hfree : r.state = .UNUSED → r.parent = none)
    (hpar : i ≠ initproc → r.state.phase = .alive ∨ r.state.phase = .dead →
      ∃ q, r.parent = some q ∧ ((t.set i r).proc q).state.phase = .alive)
    (hkids : (t.proc i).state.phase = .alive → r.state.phase ≠ .alive →
      ∀ j, (t.proc j).parent ≠ some i) :
    TreeInv (t.set i r) := by
  refine ⟨?_, ?_, fun j hj => ?_, fun j hj hst => ?_⟩
  · by_cases hi : initproc = i
    · rw [← hi, PTable.set_proc_self]
      exact (hinit hi.symm).1
    · rw [PTable.set_proc_of_ne _ _ hi]
      exact hs.init_alive
  · by_cases hi : initproc = i
    · rw [← hi, PTable.set_proc_self]
      exact (hinit hi.symm).2
    · rw [PTable.set_proc_of_ne _ _ hi]
      exact hs.init_parent
  · by_cases hji : j = i
    · subst hji
      rw [PTable.set_proc_self] at hj ⊢
      exact hfree hj
    · rw [PTable.set_proc_of_ne _ _ hji] at hj ⊢
      exact hs.free_parent j hj
  · by_cases hji : j = i
    · subst hji
      rw [PTable.set_proc_self] at hst ⊢
      exact hpar hj hst
    · rw [PTable.set_proc_of_ne _ _ hji] at hst ⊢
      obtain ⟨q, hq, hqa⟩ := hs.parent_alive j hj hst
      refine ⟨q, hq, ?_⟩
      by_cases hqi : q = i
      · -- the parent is the slot written: it stays alive, or it had no children to lose
        subst hqi
        rw [PTable.set_proc_self]
        by_contra hr
        exact hkids hqa hr j hq
      · rwa [PTable.set_proc_of_ne _ _ hqi]

/-- `freeproc` of a slot that is not alive: the `ZOMBIE` that `kwait` reaps, or the slot a
failed `kfork` gives back. -/
theorem TreeInv.freeproc {t : PTable} (hs : TreeInv t) {c : Fin NPROC}
    (hc : (t.proc c).state.phase ≠ .alive) : TreeInv (Xv6.freeproc t c) :=
  hs.set c _ (fun e => absurd e (hs.ne_initproc hc)) (fun _ => rfl)
    (fun _ e => by simp [Procstate.phase] at e) (fun e => absurd e hc)

/-! ## `kfork` -/

/-- Everything `kfork` can do to the table: nothing when no slot is free; otherwise it claims
the first free slot `i` and either frees it again (an allocation or the copy failed) or starts
it `RUNNABLE` as a child of the caller. -/
theorem kfork_cases (t : PTable) (p : Fin NPROC) (tf pt : Nat) (ok : Bool) :
    (kfork t p tf pt ok).1 = t ∨
      ∃ i q, findUnused t slots = some i ∧ q.state = .USED ∧ q.parent = (t.proc i).parent ∧
        ((kfork t p tf pt ok).1 =
            Xv6.freeproc (({ t with nextpid := t.nextpid + 1 } : PTable).set i q) i ∨
          ∃ r : Proc, r.state = .RUNNABLE ∧ r.parent = some p ∧
            (kfork t p tf pt ok).1 = ({ t with nextpid := t.nextpid + 1 } : PTable).set i r) := by
  rcases allocproc_cases t tf pt with ⟨-, h⟩ | ⟨i, q, hi, hq, -, -, hpar, ⟨-, -, h⟩ | ⟨-, h⟩⟩
  · left
    simp [kfork, h]
  · right
    refine ⟨i, q, hi, hq, hpar, ?_⟩
    cases ok
    · left
      simp [kfork, h]
    · right
      refine ⟨{ q with
          sz := ((({ t with nextpid := t.nextpid + 1 } : PTable).set i q).proc p).sz
          parent := some p
          state := .RUNNABLE }, rfl, rfl, ?_⟩
      simp [kfork, h]
  · right
    refine ⟨i, q, hi, hq, hpar, .inl ?_⟩
    cases ok <;> simp [kfork, h]

theorem TreeInv.kfork {t : PTable} (hs : TreeInv t) {p : Fin NPROC} (hp : t.Running p)
    (tf pt : Nat) (ok : Bool) : TreeInv (Xv6.kfork t p tf pt ok).1 := by
  have hs' : TreeInv ({ t with nextpid := t.nextpid + 1 } : PTable) :=
    hs.of_same fun _ => ⟨rfl, rfl⟩
  rcases kfork_cases t p tf pt ok with h | ⟨i, q, hi, hq, hpar, h | ⟨r, hr, hrp, h⟩⟩ <;> rw [h]
  · exact hs
  · -- the slot is marked `USED` and freed again
    have hu := findUnused_unused hi
    have hclaim : TreeInv (({ t with nextpid := t.nextpid + 1 } : PTable).set i q) :=
      hs'.set i q (fun e => absurd e (hs.ne_initproc (by simp [hu, Procstate.phase])))
        (fun e => by rw [hq] at e; cases e) (fun _ e => by simp [hq, Procstate.phase] at e)
        (fun e => by simp [hu, Procstate.phase] at e)
    exact hclaim.freeproc (by simp [hq, Procstate.phase])
  · -- the child starts with the running caller as its parent
    have hu := findUnused_unused hi
    have hp' : (t.proc p).state = .RUNNING := hp
    have hpi : p ≠ i := by
      rintro rfl
      rw [hu] at hp'
      cases hp'
    refine hs'.set i r (fun e => absurd e (hs.ne_initproc (by simp [hu, Procstate.phase])))
      (fun e => by rw [hr] at e; cases e) (fun _ _ => ⟨p, hrp, ?_⟩)
      (fun e => by simp [hu, Procstate.phase] at e)
    rw [PTable.set_proc_of_ne _ _ hpi]
    simp [hp', Procstate.phase]

/-! ## `kexit` -/

/-- `t'` is `t` with the children of `p` handed to `initproc`, and every phase as it was. -/
def Reparented (p : Fin NPROC) (t t' : PTable) : Prop :=
  ∀ j, (t'.proc j).state.phase = (t.proc j).state.phase ∧
    (t'.proc j).parent = if (t.proc j).parent = some p then some initproc else (t.proc j).parent

/-- The loop of `reparent` hands over the children of `p` among the slots it visits, and
changes no phase: its `wakeup`s only make sleepers runnable. -/
theorem reparentLoop_proc {p : Fin NPROC} (hp : p ≠ initproc) (l : List (Fin NPROC))
    (t : PTable) (j : Fin NPROC) :
    ((reparentLoop p l t).proc j).state.phase = (t.proc j).state.phase ∧
      ((reparentLoop p l t).proc j).parent =
        if j ∈ l ∧ (t.proc j).parent = some p then some initproc else (t.proc j).parent := by
  induction l generalizing t with
  | nil => simp [reparentLoop]
  | cons c rest ih =>
    simp only [reparentLoop]
    split
    · rename_i hc
      have h₁ := SameTree.wakeup (t.set c { t.proc c with parent := some initproc }) (some p)
        (some (.proc initproc))
      obtain ⟨hph, hpar⟩ := ih (Xv6.wakeup (t.set c { t.proc c with parent := some initproc })
        (some p) (some (.proc initproc)))
      refine ⟨hph.trans ((h₁ j).2.trans ?_), hpar.trans ?_⟩
      · by_cases hjc : j = c
        · subst hjc
          simp
        · simp [hjc]
      · rw [(h₁ j).1]
        by_cases hjc : j = c
        · -- the slot just handed over no longer has `p` as its parent
          subst hjc
          simp [hc, Ne.symm hp]
        · simp [hjc]
    · rename_i hc
      obtain ⟨hph, hpar⟩ := ih t
      refine ⟨hph, hpar.trans ?_⟩
      by_cases hjc : j = c
      · subst hjc
        simp [hc]
      · simp [hjc]

theorem reparent_reparented {p : Fin NPROC} (hp : p ≠ initproc) (t : PTable) :
    Reparented p t (reparent t p) := by
  intro j
  simpa [reparent, slots] using reparentLoop_proc hp slots t j

theorem Reparented.wakeup {p : Fin NPROC} {t t' : PTable} (h : Reparented p t t')
    (me : Option (Fin NPROC)) (chan : Option Chan) : Reparented p t (Xv6.wakeup t' me chan) := by
  intro j
  obtain ⟨hpar, hph⟩ := SameTree.wakeup t' me chan j
  exact ⟨hph.trans (h j).1, hpar.trans (h j).2⟩

/-- After the hand-over, `p` is nobody's parent. -/
theorem Reparented.not_parent {p : Fin NPROC} {t t' : PTable} (h : Reparented p t t')
    (hp : p ≠ initproc) (j : Fin NPROC) : (t'.proc j).parent ≠ some p := by
  rw [(h j).2]
  split
  · simpa using Ne.symm hp
  · assumption

theorem TreeInv.reparented {p : Fin NPROC} {t t' : PTable} (hs : TreeInv t)
    (h : Reparented p t t') : TreeInv t' := by
  -- a parent that is alive stays alive, and `initproc` is alive
  have halive : ∀ q, (t.proc q).state.phase = .alive → (t'.proc q).state.phase = .alive :=
    fun q hq => (h q).1.trans hq
  refine ⟨halive _ hs.init_alive, ?_, fun j hj => ?_, fun j hj hst => ?_⟩
  · rw [(h initproc).2, hs.init_parent]
    rfl
  · have hph := (h j).1
    rw [hj] at hph
    have hfree := hs.free_parent j ((Procstate.phase_eq_free _).mp hph.symm)
    rw [(h j).2, hfree]
    rfl
  · rw [(h j).1] at hst
    obtain ⟨q, hq, hqa⟩ := hs.parent_alive j hj hst
    rw [(h j).2, hq]
    by_cases hqp : q = p
    · subst hqp
      exact ⟨initproc, by simp, halive _ hs.init_alive⟩
    · exact ⟨q, by simp [hqp], halive q hqa⟩

/-- What `kexit` does: hand the children of `p` to `initproc` without changing a phase, then
make `p` a `ZOMBIE` with its parent as it then is. -/
theorem kexit_eq {t t' : PTable} {p : Fin NPROC} {status : Int} (h : kexit t p status = some t') :
    p ≠ initproc ∧ ∃ t₂ : PTable, Reparented p t t₂ ∧
      t' = t₂.set p { t₂.proc p with xstate := status, state := .ZOMBIE } := by
  unfold kexit at h
  split at h
  · cases h
  · rename_i hp
    simp only [Option.some.injEq] at h
    exact ⟨hp, _, (reparent_reparented hp t).wakeup _ _, h.symm⟩

/-- `kexit` by any process but `initproc` returns a table. -/
theorem kexit_eq_some_getD (t : PTable) {p : Fin NPROC} (status : Int) (hp : p ≠ initproc) :
    kexit t p status = some ((kexit t p status).getD t) := by
  unfold kexit
  rw [if_neg hp]
  rfl

theorem TreeInv.kexit {t t' : PTable} (hs : TreeInv t) {p : Fin NPROC} (hp : t.Running p)
    {status : Int} (h : Xv6.kexit t p status = some t') : TreeInv t' := by
  obtain ⟨hpi, t₂, h₂, rfl⟩ := kexit_eq h
  have hs₂ := hs.reparented h₂
  have hp₂ : (t₂.proc p).state.phase = .alive := by
    rw [(h₂ p).1, show (t.proc p).state = .RUNNING from hp]
    rfl
  refine hs₂.set p _ (fun e => absurd e hpi) (fun e => by cases e) (fun _ _ => ?_)
    (fun _ _ => h₂.not_parent hpi)
  -- `p` keeps a parent that is alive, and that parent is not `p` itself
  obtain ⟨q, hq, hqa⟩ := hs₂.parent_alive p hpi (.inl hp₂)
  have hqp : q ≠ p := by
    intro e
    rw [e] at hq
    exact h₂.not_parent hpi p hq
  exact ⟨q, hq, by rwa [PTable.set_proc_of_ne _ _ hqp]⟩

/-- `kexit` hands every child of the exiting process to `initproc`. -/
theorem kexit_hands_children {t t' : PTable} {p : Fin NPROC} {status : Int}
    (h : kexit t p status = some t') (j : Fin NPROC) (hj : (t.proc j).parent = some p) :
    (t'.proc j).parent = some initproc := by
  obtain ⟨-, t₂, h₂, rfl⟩ := kexit_eq h
  have hj₂ : (t₂.proc j).parent = some initproc := by
    rw [(h₂ j).2, if_pos hj]
  by_cases hjp : j = p
  · subst hjp
    simpa using hj₂
  · rwa [PTable.set_proc_of_ne _ _ hjp]

/-! ## `kwait` -/

/-- The scan of `kwait` reaps the first `ZOMBIE` child among the slots `l`, if there is one,
and chooses between `-1` and sleeping only when there is none. -/
theorem kwaitLoop_eq (p : Fin NPROC) (addr : Nat) (ok : Bool) (l : List (Fin NPROC))
    (havekids : Bool) (t : PTable) :
    kwaitLoop p addr ok l havekids t =
      match l.find? (fun c => decide (t.ZombieChild p c)) with
      | some c =>
        if addr ≠ 0 ∧ !ok then (t, some (-1), none)
        else (Xv6.freeproc t c, some (t.proc c).pid,
          if addr ≠ 0 then some (t.proc c).xstate else none)
      | none =>
        if !(havekids || l.any fun c => decide ((t.proc c).parent = some p)) ||
            (t.proc p).killed ≠ 0 then (t, some (-1), none)
        else (sleep t p (.proc p), none, none) := by
  induction l generalizing havekids with
  | nil => simp [kwaitLoop]
  | cons c rest ih =>
    by_cases hpar : (t.proc c).parent = some p
    · by_cases hz : (t.proc c).state = .ZOMBIE
      · have hzc : t.ZombieChild p c := ⟨hpar, hz⟩
        rw [kwaitLoop, if_pos hpar, if_pos hz,
          List.find?_cons_of_pos (p := fun c => decide (t.ZombieChild p c)) (decide_eq_true hzc)]
      · -- a live child: the scan goes on with `havekids` set
        have hzc : ¬t.ZombieChild p c := fun h => hz h.2
        rw [kwaitLoop, if_pos hpar, if_neg hz, ih true, List.find?_cons_of_neg (by simpa using hzc)]
        split <;> simp [hpar]
    · have hzc : ¬t.ZombieChild p c := fun h => hpar h.1
      rw [kwaitLoop, if_neg hpar, ih havekids, List.find?_cons_of_neg (by simpa using hzc)]
      split <;> simp [hpar]

/-- Everything one pass of `kwait(addr)` can do: reap a `ZOMBIE` child, return its pid and
store its status at `addr` (or return `-1`, changing nothing, when the copy of the status
fails); return `-1` when there is no `ZOMBIE` child and the caller has no children or is
killed; or put the caller to sleep. -/
theorem kwait_cases (t : PTable) (p : Fin NPROC) (addr : Nat) (ok : Bool) :
    (∃ c, t.ZombieChild p c ∧
        kwait t p addr ok =
          if addr ≠ 0 ∧ !ok then (t, some (-1), none)
          else (Xv6.freeproc t c, some (t.proc c).pid,
            if addr ≠ 0 then some (t.proc c).xstate else none)) ∨
      ((∀ c, ¬t.ZombieChild p c) ∧ ((∀ c, (t.proc c).parent ≠ some p) ∨ (t.proc p).killed ≠ 0) ∧
        kwait t p addr ok = (t, some (-1), none)) ∨
      ((∀ c, ¬t.ZombieChild p c) ∧ (∃ c, (t.proc c).parent = some p) ∧ (t.proc p).killed = 0 ∧
        kwait t p addr ok = (sleep t p (.proc p), none, none)) := by
  rw [kwait, kwaitLoop_eq]
  cases hf : slots.find? (fun c => decide (t.ZombieChild p c)) with
  | some c =>
    exact .inl ⟨c, by simpa using List.find?_some hf, rfl⟩
  | none =>
    have hnz : ∀ c, ¬t.ZombieChild p c := by
      intro c hc
      simpa [hc] using List.find?_eq_none.mp hf c (List.mem_finRange c)
    right
    by_cases hkids : ∃ c, (t.proc c).parent = some p
    · have hany : (slots.any fun c => decide ((t.proc c).parent = some p)) = true := by
        obtain ⟨c, hc⟩ := hkids
        exact List.any_eq_true.mpr ⟨c, List.mem_finRange c, by simpa using hc⟩
      by_cases hk : (t.proc p).killed = 0
      · exact .inr ⟨hnz, hkids, hk, by simp [hany, hk]⟩
      · exact .inl ⟨hnz, .inr hk, by simp [hany, hk]⟩
    · have hany : (slots.any fun c => decide ((t.proc c).parent = some p)) = false := by
        simpa [slots] using hkids
      exact .inl ⟨hnz, .inl (by simpa using hkids), by simp [hany]⟩

theorem TreeInv.kwait {t : PTable} (hs : TreeInv t) {p : Fin NPROC} (hp : t.Running p)
    (addr : Nat) (ok : Bool) : TreeInv (Xv6.kwait t p addr ok).1 := by
  rcases kwait_cases t p addr ok with ⟨c, hc, h⟩ | ⟨-, -, h⟩ | ⟨-, -, -, h⟩ <;> rw [h]
  · split
    · exact hs
    · exact hs.freeproc (by simp [hc.2, Procstate.phase])
  · exact hs
  · exact hs.of_same (SameTree.setRunning _ _ hp rfl rfl)

/-! ## Every run -/

theorem TreeInv.step {t t' : PTable} {e : PEvent} (hs : TreeInv t) (h : PStep t e t') :
    TreeInv t' := by
  cases h with
  | fork hp => exact hs.kfork hp _ _ _
  | exit hp hex => exact hs.kexit hp hex
  | wait hp => exact hs.kwait hp _ _
  | kill hp => exact hs.of_same (SameTree.kkillLoop _ _ _)
  | setkilled hp => exact hs.of_same (SameTree.set _ _ _ rfl rfl)
  | yield hp => exact hs.of_same (SameTree.setRunning _ _ hp rfl rfl)
  | sleep hp => exact hs.of_same (SameTree.setRunning _ _ hp rfl rfl)
  | wakeup hme => exact hs.of_same (SameTree.wakeup _ _ _)
  | schedule => exact hs.of_same (SameTree.scheduler _)

theorem TreeInv.userinit {tf pt : Nat} {t0 : PTable} (h : Xv6.userinit tf pt = some t0) :
    TreeInv t0 := by
  unfold Xv6.userinit at h
  rcases allocproc_cases PTable.zero tf pt with
    ⟨-, ha⟩ | ⟨i, q, hi, hq, -, -, hpar, ⟨-, -, ha⟩ | ⟨-, ha⟩⟩ <;> rw [ha] at h
  · cases h
  · simp only [Option.some.injEq] at h
    subst h
    -- the zeroed table's first free slot is slot `0`
    have hi0 : i = initproc := by
      have h0 : findUnused PTable.zero slots = some initproc := rfl
      rw [h0, Option.some.injEq] at hi
      exact hi.symm
    subst hi0
    refine ⟨by simp [Procstate.phase], by simpa [PTable.zero, Proc.zero] using hpar,
      fun j hj => ?_, fun j hj hst => ?_⟩
    · by_cases hj0 : j = initproc
      · subst hj0
        simp at hj
      · simp [hj0, PTable.zero, Proc.zero]
    · simp [hj, PTable.zero, Proc.zero, Procstate.phase] at hst
  · cases h

/-- The tree invariant holds along every run from `userinit`. -/
theorem TreeInv.reachable {tf pt : Nat} {t0 t : PTable} {evs : List PEvent}
    (hboot : Xv6.userinit tf pt = some t0) (hrun : Trace.Run PStep t0 evs t) : TreeInv t :=
  Trace.Run.invariant (TreeInv.userinit hboot) (fun _ _ _ hs h => hs.step h) hrun

/-! ## Reaping -/

/-- When `kwait` returns `-1` it frees nothing and stores no status: the table is as it was. -/
theorem kwait_neg_one_table {t : PTable} (hs : PidInv t) {p : Fin NPROC} {addr : Nat} {ok : Bool}
    (h : (kwait t p addr ok).2.1 = some (-1)) :
    (kwait t p addr ok).1 = t ∧ (kwait t p addr ok).2.2 = none := by
  rcases kwait_cases t p addr ok with ⟨c, hc, he⟩ | ⟨-, -, he⟩ | ⟨-, -, -, he⟩ <;> rw [he] at h ⊢
  · by_cases hf : addr ≠ 0 ∧ !ok
    · rw [if_pos hf]
      exact ⟨rfl, rfl⟩
    · -- a reaped child's pid is in use, so it is not `-1`
      rw [if_neg hf] at h
      have hpid := hs.used_pid c (by rw [hc.2]; decide)
      simp only [Option.some.injEq] at h
      omega
  · exact ⟨rfl, rfl⟩
  · cases h

/-- Under the pid invariant, `kwait(addr)` returns `-1` exactly when it finds no `ZOMBIE`
child and the caller has no children or is killed, or when it finds one and the copy of the
status to a nonzero `addr` fails. -/
theorem kwait_neg_one_iff {t : PTable} (hs : PidInv t) (p : Fin NPROC) (addr : Nat) (ok : Bool) :
    (kwait t p addr ok).2.1 = some (-1) ↔
      ((∀ c, ¬t.ZombieChild p c) ∧ ((∀ c, (t.proc c).parent ≠ some p) ∨ (t.proc p).killed ≠ 0)) ∨
        ((∃ c, t.ZombieChild p c) ∧ addr ≠ 0 ∧ ok = false) := by
  rcases kwait_cases t p addr ok with ⟨c, hc, h⟩ | ⟨hnz, hk, h⟩ | ⟨hnz, hkids, hk, h⟩ <;> rw [h]
  · by_cases hf : addr ≠ 0 ∧ !ok
    · rw [if_pos hf]
      exact ⟨fun _ => .inr ⟨⟨c, hc⟩, hf.1, by simpa using hf.2⟩, fun _ => rfl⟩
    · rw [if_neg hf]
      have hpid := hs.used_pid c (by rw [hc.2]; decide)
      simp only [Option.some.injEq]
      constructor
      · intro e
        omega
      · rintro (⟨hnz, -⟩ | ⟨-, ha, e⟩)
        · exact absurd hc (hnz c)
        · exact absurd ⟨ha, by simp [e]⟩ hf
  · exact ⟨fun _ => .inl ⟨hnz, hk⟩, fun _ => rfl⟩
  · constructor
    · intro e
      cases e
    · rintro (⟨-, hno | hk'⟩ | ⟨⟨c, hc⟩, -⟩)
      · obtain ⟨c, hc⟩ := hkids
        exact absurd hc (hno c)
      · exact absurd hk hk'
      · exact absurd hc (hnz c)

/-- A `ZOMBIE` is freed in one step only by a `kwait(addr)` of its parent whose copy of the
status succeeds or is not asked for (`addr` is `0`), and that `kwait` returns the child's pid and
stores its status at a nonzero `addr`. -/
theorem PStep.zombie_freed {t t' : PTable} {e : PEvent} (h : PStep t e t') {i : Fin NPROC}
    (hz : (t.proc i).state = .ZOMBIE) (hu : (t'.proc i).state = .UNUSED) :
    ∃ p addr ok, e = .wait p addr ok ∧ (addr = 0 ∨ ok = true) ∧ (t.proc i).parent = some p ∧
      kwait t p addr ok = (Xv6.freeproc t i, some (t.proc i).pid,
        if addr ≠ 0 then some (t.proc i).xstate else none) := by
  -- a step that keeps every phase, or leaves slot `i` alone, cannot free it
  have hsame : ∀ {t'' : PTable}, SameTree t t'' → (t''.proc i).state ≠ .UNUSED := by
    intro t'' hst hu''
    have hph := (hst i).2
    rw [hz, hu''] at hph
    cases hph
  have hkeep : ∀ {t'' : PTable}, t''.proc i = t.proc i → (t''.proc i).state ≠ .UNUSED := by
    intro t'' e
    rw [e, hz]
    decide
  cases h with
  | fork hp =>
    rcases kfork_cases t _ _ _ _ with h | ⟨i₀, q, hi₀, -, -, hcase⟩
    · rw [h] at hu
      exact absurd hu (hsame (SameTree.refl t))
    · -- `kfork` writes only the free slot it claims
      have hne : i ≠ i₀ := by
        rintro rfl
        rw [findUnused_unused hi₀] at hz
        cases hz
      rcases hcase with h | ⟨r, -, -, h⟩ <;> rw [h] at hu <;> refine absurd hu (hkeep ?_)
      · simp [Xv6.freeproc, hne]
      · simp [hne]
  | exit hp hex =>
    obtain ⟨-, t₂, h₂, rfl⟩ := kexit_eq hex
    rename_i p _
    by_cases hip : i = p
    · subst hip
      simp at hu
    · rw [PTable.set_proc_of_ne _ _ hip] at hu
      have hph := (h₂ i).1
      rw [hz, hu] at hph
      cases hph
  | wait hp =>
    rename_i p addr ok
    rcases kwait_cases t p addr ok with ⟨c, hc, he⟩ | ⟨-, -, he⟩ | ⟨-, -, -, he⟩ <;> rw [he] at hu
    · by_cases hf : addr ≠ 0 ∧ !ok
      · rw [if_pos hf] at hu
        exact absurd hu (hsame (SameTree.refl t))
      · rw [if_neg hf] at hu he
        by_cases hic : i = c
        · subst hic
          have hcopy : addr = 0 ∨ ok = true := by
            by_cases ha : addr = 0
            · exact .inl ha
            · exact .inr (by simpa [ha] using hf)
          exact ⟨p, addr, ok, rfl, hcopy, hc.1, he⟩
        · exact absurd hu (hkeep (PTable.set_proc_of_ne _ _ hic))
    · exact absurd hu (hsame (SameTree.refl t))
    · exact absurd hu (hsame (SameTree.setRunning _ _ hp rfl rfl))
  | kill hp => exact absurd hu (hsame (SameTree.kkillLoop _ _ _))
  | setkilled hp => exact absurd hu (hsame (SameTree.set _ _ _ rfl rfl))
  | yield hp => exact absurd hu (hsame (SameTree.setRunning _ _ hp rfl rfl))
  | sleep hp => exact absurd hu (hsame (SameTree.setRunning _ _ hp rfl rfl))
  | wakeup hme => exact absurd hu (hsame (SameTree.wakeup _ _ _))
  | schedule => exact absurd hu (hsame (SameTree.scheduler _))

/-! ## Exit statuses

`kexit` stores the status in `xstate` as it makes the process a `ZOMBIE`. No other step writes
the `xstate` of a `ZOMBIE` or makes a slot one, and `freeproc` clears `xstate` only as the slot
stops being one. So the status a `kwait` stores is the one the child passed to `kexit`. -/

/-- The status of an event that is a `kexit` of slot `i`. -/
def PEvent.exitStatus (i : Fin NPROC) : PEvent → Option Int
  | .exit j status => if j = i then some status else none
  | _ => none

/-- What `KeepsStatus` compares in a slot: a `ZOMBIE` afterwards was one before, with the same
status. -/
def ZombieKept (q q' : Proc) : Prop := q'.state = .ZOMBIE → q.state = .ZOMBIE ∧ q'.xstate = q.xstate

theorem ZombieKept.refl (q : Proc) : ZombieKept q q := fun h => ⟨h, rfl⟩

theorem ZombieKept.trans {a b c : Proc} (h₁ : ZombieKept a b) (h₂ : ZombieKept b c) :
    ZombieKept a c := by
  intro hz
  obtain ⟨hz₂, hx₂⟩ := h₂ hz
  obtain ⟨hz₁, hx₁⟩ := h₁ hz₂
  exact ⟨hz₁, hx₂.trans hx₁⟩

/-- A slot that is no `ZOMBIE` afterwards. -/
theorem ZombieKept.of_live {q q' : Proc} (h : q'.state ≠ .ZOMBIE) : ZombieKept q q' :=
  fun hz => absurd hz h

/-- Every slot that is a `ZOMBIE` in `t'` was one in `t`, with the same status:
`Slotwise ZombieKept t t'`. -/
def KeepsStatus (t t' : PTable) : Prop :=
  ∀ i, (t'.proc i).state = .ZOMBIE →
    (t.proc i).state = .ZOMBIE ∧ (t'.proc i).xstate = (t.proc i).xstate

theorem KeepsStatus.refl (t : PTable) : KeepsStatus t t := Slotwise.refl ZombieKept.refl t

theorem KeepsStatus.trans {t₁ t₂ t₃ : PTable} (h₁ : KeepsStatus t₁ t₂) (h₂ : KeepsStatus t₂ t₃) :
    KeepsStatus t₁ t₃ :=
  Slotwise.trans (R := ZombieKept) (fun _ _ _ => ZombieKept.trans) h₁ h₂

/-- Writing a slot that is no `ZOMBIE` afterwards, or was one and keeps its status. -/
theorem KeepsStatus.set (t : PTable) (i : Fin NPROC) (q : Proc)
    (h : q.state = .ZOMBIE → (t.proc i).state = .ZOMBIE ∧ q.xstate = (t.proc i).xstate) :
    KeepsStatus t (t.set i q) :=
  Slotwise.set ZombieKept.refl t i h

/-- Writing a slot without touching its state or its status. -/
theorem KeepsStatus.set_same (t : PTable) (i : Fin NPROC) (q : Proc)
    (hst : q.state = (t.proc i).state) (hx : q.xstate = (t.proc i).xstate) :
    KeepsStatus t (t.set i q) :=
  KeepsStatus.set t i q fun hz => ⟨hst ▸ hz, hx⟩

/-- Writing a slot with a state that is not `ZOMBIE`. -/
theorem KeepsStatus.set_live (t : PTable) (i : Fin NPROC) (q : Proc) (hq : q.state ≠ .ZOMBIE) :
    KeepsStatus t (t.set i q) :=
  Slotwise.set ZombieKept.refl t i (ZombieKept.of_live hq)

-- `wakeup`, `reparent`, `kkill` and the scheduler make no `ZOMBIE` and write no status
theorem KeepsStatus.wakeup (t : PTable) (me : Option (Fin NPROC)) (chan : Option Chan) :
    KeepsStatus t (Xv6.wakeup t me chan) :=
  Slotwise.wakeup ZombieKept.refl (fun _ _ => ZombieKept.of_live (by simp)) t me chan

theorem KeepsStatus.reparentLoop (p : Fin NPROC) (l : List (Fin NPROC)) (t : PTable) :
    KeepsStatus t (Xv6.reparentLoop p l t) :=
  Slotwise.reparentLoop ZombieKept.refl (fun _ _ _ => ZombieKept.trans) (fun _ hz => ⟨hz, rfl⟩)
    (fun _ _ => ZombieKept.of_live (by simp)) p l t

theorem KeepsStatus.kkillLoop (pid : Int) (l : List (Fin NPROC)) (t : PTable) :
    KeepsStatus t (Xv6.kkillLoop pid l t).1 :=
  Slotwise.kkillLoop ZombieKept.refl (fun _ _ hz => ⟨hz, rfl⟩)
    (fun _ _ => ZombieKept.of_live (by simp)) pid l t

theorem KeepsStatus.scheduler (t : PTable) : KeepsStatus t (Xv6.scheduler t) :=
  Slotwise.scheduler ZombieKept.refl (fun _ _ => ZombieKept.of_live (by simp)) t

theorem KeepsStatus.freeproc (t : PTable) (i : Fin NPROC) : KeepsStatus t (Xv6.freeproc t i) :=
  KeepsStatus.set_live _ _ _ (by simp)

/-- `kfork` makes no `ZOMBIE`: the slot it claims ends `RUNNABLE` or free again. -/
theorem KeepsStatus.kfork (t : PTable) (p : Fin NPROC) (tf pt : Nat) (ok : Bool) :
    KeepsStatus t (Xv6.kfork t p tf pt ok).1 := by
  have hnext : KeepsStatus t ({ t with nextpid := t.nextpid + 1 } : PTable) :=
    KeepsStatus.refl t
  rcases kfork_cases t p tf pt ok with h | ⟨i, q, -, hq, -, h | ⟨r, hr, -, h⟩⟩ <;> rw [h]
  · exact KeepsStatus.refl t
  · exact (hnext.trans (KeepsStatus.set_live _ _ _ (by rw [hq]; decide))).trans
      (KeepsStatus.freeproc _ _)
  · exact hnext.trans (KeepsStatus.set_live _ _ _ (by rw [hr]; decide))

theorem KeepsStatus.kwait (t : PTable) (p : Fin NPROC) (addr : Nat) (ok : Bool) :
    KeepsStatus t (Xv6.kwait t p addr ok).1 := by
  rcases kwait_cases t p addr ok with ⟨c, -, h⟩ | ⟨-, -, h⟩ | ⟨-, -, -, h⟩ <;> rw [h]
  · split
    · exact KeepsStatus.refl t
    · exact KeepsStatus.freeproc t c
  · exact KeepsStatus.refl t
  · exact KeepsStatus.set_live _ _ _ (by simp)

/-- `kexit` by `p` makes `p` a `ZOMBIE` holding `status`, and keeps the status of every other
slot. -/
theorem kexit_status {t t' : PTable} {p : Fin NPROC} {status : Int}
    (h : kexit t p status = some t') :
    (t'.proc p).state = .ZOMBIE ∧ (t'.proc p).xstate = status ∧
      ∀ i, i ≠ p → (t'.proc i).state = .ZOMBIE →
        (t.proc i).state = .ZOMBIE ∧ (t'.proc i).xstate = (t.proc i).xstate := by
  unfold kexit at h
  split at h
  · cases h
  · simp only [Option.some.injEq] at h
    subst h
    have hk := (KeepsStatus.reparentLoop p slots t).trans (KeepsStatus.wakeup (reparent t p)
      (some p) (((reparent t p).proc p).parent.map Chan.proc))
    refine ⟨by simp, by simp, fun i hi hz => ?_⟩
    rw [PTable.set_proc_of_ne _ _ hi] at hz ⊢
    exact hk i hz

/-- One step sets the status of a `ZOMBIE` only as the `kexit` that makes it one; otherwise the
slot was a `ZOMBIE` already, with the same status. -/
theorem PStep.exit_status {t t' : PTable} {e : PEvent} (h : PStep t e t') (i : Fin NPROC)
    (hz : (t'.proc i).state = .ZOMBIE) :
    e.exitStatus i = some (t'.proc i).xstate ∨
      (e.exitStatus i = none ∧ (t.proc i).state = .ZOMBIE ∧
        (t'.proc i).xstate = (t.proc i).xstate) := by
  have hkeep : ∀ {t''}, KeepsStatus t t'' → (t''.proc i).state = .ZOMBIE →
      (t.proc i).state = .ZOMBIE ∧ (t''.proc i).xstate = (t.proc i).xstate :=
    fun hk hz => hk i hz
  cases h with
  | fork hp => exact .inr ⟨rfl, hkeep (KeepsStatus.kfork _ _ _ _ _) hz⟩
  | exit hp hex =>
    rename_i p status
    obtain ⟨-, hx, hother⟩ := kexit_status hex
    by_cases hip : i = p
    · subst hip
      exact .inl (by simp [PEvent.exitStatus, hx])
    · exact .inr ⟨by simp [PEvent.exitStatus, Ne.symm hip], hother i hip hz⟩
  | wait hp => exact .inr ⟨rfl, hkeep (KeepsStatus.kwait _ _ _ _) hz⟩
  | kill hp => exact .inr ⟨rfl, hkeep (KeepsStatus.kkillLoop _ _ _) hz⟩
  | setkilled hp => exact .inr ⟨rfl, hkeep (KeepsStatus.set_same _ _ _ rfl rfl) hz⟩
  | yield hp => exact .inr ⟨rfl, hkeep (KeepsStatus.set_live _ _ _ (by simp)) hz⟩
  | sleep hp => exact .inr ⟨rfl, hkeep (KeepsStatus.set_live _ _ _ (by simp)) hz⟩
  | wakeup hme => exact .inr ⟨rfl, hkeep (KeepsStatus.wakeup _ _ _) hz⟩
  | schedule => exact .inr ⟨rfl, hkeep (KeepsStatus.scheduler _) hz⟩

/-- `userinit` makes no `ZOMBIE`. -/
theorem userinit_no_zombie {tf pt : Nat} {t0 : PTable} (h : userinit tf pt = some t0)
    (i : Fin NPROC) : (t0.proc i).state ≠ .ZOMBIE := by
  unfold userinit at h
  rcases allocproc_cases PTable.zero tf pt with
    ⟨-, ha⟩ | ⟨j, q, -, hq, -, -, -, ⟨-, -, ha⟩ | ⟨-, ha⟩⟩ <;> rw [ha] at h
  · cases h
  · simp only [Option.some.injEq] at h
    subst h
    by_cases hij : i = j
    · subst hij
      simp
    · simp [hij, PTable.zero, Proc.zero]
  · cases h

/-- Along every run from `userinit`, a `ZOMBIE` holds the status of the last `kexit` of its
slot. -/
theorem zombie_status_last_exit {tf pt : Nat} {t0 t : PTable} {evs : List PEvent}
    (hboot : userinit tf pt = some t0) (hrun : Trace.Run PStep t0 evs t) (i : Fin NPROC)
    (hz : (t.proc i).state = .ZOMBIE) :
    Trace.lastOf (PEvent.exitStatus i) evs = some (t.proc i).xstate := by
  -- the invariant over the state and the events so far, one event at a time
  refine Trace.Run.trace_induction
    (Q := fun t evs => ∀ i, (t.proc i).state = .ZOMBIE →
      Trace.lastOf (PEvent.exitStatus i) evs = some (t.proc i).xstate)
    (fun i hz => absurd hz (userinit_no_zombie hboot i)) (fun t evs e t' ih hstep i hz => ?_)
    hrun i hz
  rw [Trace.lastOf_append_singleton]
  rcases hstep.exit_status i hz with he | ⟨he, hz₀, hx⟩
  · rw [he]
    rfl
  · rw [he, hx]
    exact ih i hz₀

/-! ## The tree and reaping along every run -/

/-- Along every run from `userinit`: each process but `initproc` that is `SLEEPING`, `RUNNABLE`,
`RUNNING` or `ZOMBIE` has a parent that is neither `UNUSED` nor `ZOMBIE`; `kexit` hands the
children of the exiting process to `initproc`; a step frees a `ZOMBIE` only as a `kwait(addr)`
of its parent whose copy of the status succeeds or is not asked for, and that `kwait` returns
the child's pid and stores at a nonzero `addr` the status of the child's last `kexit`; and
`kwait` returns `-1`, leaving the table as it was and storing nothing, exactly when it finds no
`ZOMBIE` child and the caller has no children or is killed, or when it finds one and the copy
to a nonzero `addr` fails. -/
theorem process_tree_and_reaping {tf pt : Nat} {t0 t : PTable} {evs : List PEvent}
    (hboot : userinit tf pt = some t0) (hrun : Trace.Run PStep t0 evs t) :
    (∀ i, i ≠ initproc → (t.proc i).state ∈ [.SLEEPING, .RUNNABLE, .RUNNING, .ZOMBIE] →
      ∃ q, (t.proc i).parent = some q ∧ (t.proc q).state ≠ .UNUSED ∧ (t.proc q).state ≠ .ZOMBIE) ∧
    (∀ p status t', kexit t p status = some t' → ∀ j, (t.proc j).parent = some p →
      (t'.proc j).parent = some initproc) ∧
    (∀ e t' i, PStep t e t' → (t.proc i).state = .ZOMBIE → (t'.proc i).state = .UNUSED →
      ∃ p addr ok, e = .wait p addr ok ∧ (addr = 0 ∨ ok = true) ∧ (t.proc i).parent = some p ∧
        kwait t p addr ok = (freeproc t i, some (t.proc i).pid,
          if addr ≠ 0 then some (t.proc i).xstate else none) ∧
        1 ≤ (t.proc i).pid ∧ Trace.lastOf (PEvent.exitStatus i) evs = some (t.proc i).xstate) ∧
    (∀ p addr ok,
      ((kwait t p addr ok).2.1 = some (-1) ↔
        ((∀ c, ¬t.ZombieChild p c) ∧ ((∀ c, (t.proc c).parent ≠ some p) ∨ (t.proc p).killed ≠ 0)) ∨
          ((∃ c, t.ZombieChild p c) ∧ addr ≠ 0 ∧ ok = false)) ∧
      ((kwait t p addr ok).2.1 = some (-1) →
        (kwait t p addr ok).1 = t ∧ (kwait t p addr ok).2.2 = none)) := by
  have hs := TreeInv.reachable hboot hrun
  have hpid := PidInv.reachable hboot hrun
  refine ⟨fun i hi hst => ?_, fun p status t' hex j hj => kexit_hands_children hex j hj,
    fun e t' i hstep hz hu => ?_,
    fun p addr ok => ⟨kwait_neg_one_iff hpid p addr ok, kwait_neg_one_table hpid⟩⟩
  · have hstarted : (t.proc i).state.phase = .alive ∨ (t.proc i).state.phase = .dead := by
      simp only [List.mem_cons, List.not_mem_nil, or_false] at hst
      rcases hst with h | h | h | h <;> simp [h, Procstate.phase]
    obtain ⟨q, hq, hqa⟩ := hs.parent_alive i hi hstarted
    refine ⟨q, hq, fun e => ?_, fun e => ?_⟩ <;> rw [e] at hqa <;> cases hqa
  · obtain ⟨p, addr, ok, he, hcopy, hpar, hk⟩ := hstep.zombie_freed hz hu
    exact ⟨p, addr, ok, he, hcopy, hpar, hk, hpid.used_pid i (by rw [hz]; decide),
      zombie_status_last_exit hboot hrun i hz⟩

/-- The run of length zero from the boot table. -/
theorem process_tree_and_reaping_at_boot :
    (∀ i, i ≠ initproc → (((userinit 0x87fff000 0x87ffe000).getD PTable.zero).proc i).state ∈
        [.SLEEPING, .RUNNABLE, .RUNNING, .ZOMBIE] →
      ∃ q, (((userinit 0x87fff000 0x87ffe000).getD PTable.zero).proc i).parent = some q ∧
        (((userinit 0x87fff000 0x87ffe000).getD PTable.zero).proc q).state ≠ .UNUSED ∧
        (((userinit 0x87fff000 0x87ffe000).getD PTable.zero).proc q).state ≠ .ZOMBIE) ∧
    (∀ p status t', kexit ((userinit 0x87fff000 0x87ffe000).getD PTable.zero) p status = some t' →
      ∀ j, (((userinit 0x87fff000 0x87ffe000).getD PTable.zero).proc j).parent = some p →
        (t'.proc j).parent = some initproc) ∧
    (∀ e t' i, PStep ((userinit 0x87fff000 0x87ffe000).getD PTable.zero) e t' →
      (((userinit 0x87fff000 0x87ffe000).getD PTable.zero).proc i).state = .ZOMBIE →
      (t'.proc i).state = .UNUSED →
      ∃ p addr ok, e = .wait p addr ok ∧ (addr = 0 ∨ ok = true) ∧
        (((userinit 0x87fff000 0x87ffe000).getD PTable.zero).proc i).parent = some p ∧
        kwait ((userinit 0x87fff000 0x87ffe000).getD PTable.zero) p addr ok =
          (freeproc ((userinit 0x87fff000 0x87ffe000).getD PTable.zero) i,
            some (((userinit 0x87fff000 0x87ffe000).getD PTable.zero).proc i).pid,
            if addr ≠ 0 then
              some (((userinit 0x87fff000 0x87ffe000).getD PTable.zero).proc i).xstate
            else none) ∧
        1 ≤ (((userinit 0x87fff000 0x87ffe000).getD PTable.zero).proc i).pid ∧
        Trace.lastOf (PEvent.exitStatus i) [] =
          some (((userinit 0x87fff000 0x87ffe000).getD PTable.zero).proc i).xstate) ∧
    (∀ p addr ok,
      ((kwait ((userinit 0x87fff000 0x87ffe000).getD PTable.zero) p addr ok).2.1 = some (-1) ↔
        ((∀ c, ¬((userinit 0x87fff000 0x87ffe000).getD PTable.zero).ZombieChild p c) ∧
          ((∀ c, (((userinit 0x87fff000 0x87ffe000).getD PTable.zero).proc c).parent ≠ some p) ∨
            (((userinit 0x87fff000 0x87ffe000).getD PTable.zero).proc p).killed ≠ 0)) ∨
          ((∃ c, ((userinit 0x87fff000 0x87ffe000).getD PTable.zero).ZombieChild p c) ∧
            addr ≠ 0 ∧ ok = false)) ∧
      ((kwait ((userinit 0x87fff000 0x87ffe000).getD PTable.zero) p addr ok).2.1 = some (-1) →
        (kwait ((userinit 0x87fff000 0x87ffe000).getD PTable.zero) p addr ok).1 =
            (userinit 0x87fff000 0x87ffe000).getD PTable.zero ∧
          (kwait ((userinit 0x87fff000 0x87ffe000).getD PTable.zero) p addr ok).2.2 = none)) :=
  process_tree_and_reaping (Option.getD_of_ne_none (Option.ne_none_iff_isSome.mpr (by decide)) _).symm
    (Trace.Run.nil _)

/-- The failing run from boot: `init` forks a child (pid `2`, in slot `1`), which kills pid `1`
and exits with status `0`. `init` is now killed and has a `ZOMBIE` child, and its `kwait(addr)`
reaps that child, returns `2`, not `-1`, and stores the status `0`. -/
theorem killed_parent_reaps_zombie_child :
    (userinit 0x87fff000 0x87ffe000).isSome ∧
      ∃ t, Trace.Run PStep ((userinit 0x87fff000 0x87ffe000).getD PTable.zero)
          [.schedule, .fork initproc 0x87ffa000 0x87ff9000 true, .schedule,
            .kill ⟨1, by decide⟩ 1, .exit ⟨1, by decide⟩ 0] t ∧
        t.Running initproc ∧ (t.proc initproc).killed = 1 ∧
        t.ZombieChild initproc ⟨1, by decide⟩ ∧ (kwait t initproc 0x3fa0 true).2 = (some 2, some 0) := by
  refine ⟨by decide, ?_⟩
  have h1 := Trace.Run.single
    (PStep.schedule (t := (userinit 0x87fff000 0x87ffe000).getD PTable.zero))
  have h2 := h1.snoc (@PStep.fork _ initproc 0x87ffa000 0x87ff9000 true (by decide))
  have h3 := h2.snoc PStep.schedule
  have h4 := h3.snoc (@PStep.kill _ ⟨1, by decide⟩ 1 (by decide))
  have h5 := h4.snoc (@PStep.exit _ _ ⟨1, by decide⟩ 0 (by decide) (kexit_eq_some_getD _ 0 (by decide)))
  exact ⟨_, h5, by decide, by decide, by decide, by decide⟩

end Xv6
