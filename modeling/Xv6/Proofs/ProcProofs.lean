import Xv6.Proc
import Xv6.Lib.Run

/-!
# Pids, free slots and the kill flag

Along every run of the process table from `userinit`, a slot is `UNUSED` exactly when its pid
is `0`, and every pid in use is positive. The kill flag is not part of that invariant:
`kkill` matches on `p->pid` alone, so `kkill(0)` finds the first `UNUSED` slot, sets its
`killed`, and returns `0`; `allocproc` never clears `killed` (it relies on `freeproc` having
done so), so the next process created in that slot starts out killed.
-/

namespace Xv6

/-! ## Tables that differ only in fields other than pids and free slots -/

/-- `t'` has the same `nextpid`, the same pids and the same `UNUSED` slots as `t`. -/
def SamePids (t t' : PTable) : Prop :=
  t'.nextpid = t.nextpid ∧
    ∀ i, (t'.proc i).pid = (t.proc i).pid ∧
      ((t'.proc i).state = .UNUSED ↔ (t.proc i).state = .UNUSED)

theorem SamePids.refl (t : PTable) : SamePids t t := ⟨rfl, fun _ => ⟨rfl, Iff.rfl⟩⟩

theorem SamePids.trans {t₁ t₂ t₃ : PTable} (h₁ : SamePids t₁ t₂) (h₂ : SamePids t₂ t₃) :
    SamePids t₁ t₃ :=
  ⟨h₂.1.trans h₁.1, fun i => ⟨(h₂.2 i).1.trans (h₁.2 i).1, (h₂.2 i).2.trans (h₁.2 i).2⟩⟩

/-- Writing a slot with the same pid and the same free-ness. -/
theorem SamePids.set (t : PTable) (i : Fin NPROC) (q : Proc) (hpid : q.pid = (t.proc i).pid)
    (hst : q.state = .UNUSED ↔ (t.proc i).state = .UNUSED) : SamePids t (t.set i q) := by
  refine ⟨rfl, fun j => ?_⟩
  by_cases hj : j = i
  · subst hj
    simp [hpid, hst]
  · simp [hj]

theorem SamePids.wakeup (t : PTable) (me : Option (Fin NPROC)) (chan : Option Chan) :
    SamePids t (Xv6.wakeup t me chan) := by
  refine ⟨rfl, fun i => ?_⟩
  simp only [Xv6.wakeup]
  split
  · rename_i h
    simp [h.2.1]
  · exact ⟨rfl, Iff.rfl⟩

theorem SamePids.reparentLoop (p : Fin NPROC) (l : List (Fin NPROC)) (t : PTable) :
    SamePids t (Xv6.reparentLoop p l t) := by
  induction l generalizing t with
  | nil => exact SamePids.refl t
  | cons pp rest ih =>
    simp only [Xv6.reparentLoop]
    split
    · exact ((SamePids.set t pp { t.proc pp with parent := some initproc } rfl Iff.rfl).trans
        (SamePids.wakeup _ _ _)).trans (ih _)
    · exact ih t

theorem SamePids.kkillLoop (pid : Int) (l : List (Fin NPROC)) (t : PTable) :
    SamePids t (Xv6.kkillLoop pid l t).1 := by
  induction l with
  | nil => exact SamePids.refl t
  | cons i rest ih =>
    simp only [Xv6.kkillLoop]
    split
    · apply SamePids.set _ _ _ (by split <;> rfl)
      split
      · rename_i hs
        have hs' : (t.proc i).state = .SLEEPING := hs
        simp [hs']
      · exact Iff.rfl
    · exact ih

/-- Writing a slot in use with the same pid and a state in use. -/
theorem SamePids.setUsed (t : PTable) (i : Fin NPROC) (q : Proc) (hpid : q.pid = (t.proc i).pid)
    (hi : (t.proc i).state ≠ .UNUSED) (hq : q.state ≠ .UNUSED) : SamePids t (t.set i q) :=
  SamePids.set _ _ _ hpid (by simp [hi, hq])

/-- The selection phase returns the candidate it started with or a `RUNNABLE` slot. -/
theorem selectLoop_runnable (t : PTable) (l : List (Fin NPROC)) (high : Option (Fin NPROC))
    {i : Fin NPROC} (h : selectLoop t l high = some i) :
    high = some i ∨ (t.proc i).state = .RUNNABLE := by
  induction l generalizing high with
  | nil => exact .inl h
  | cons j rest ih =>
    by_cases hj : (t.proc j).state = .RUNNABLE
    · have hsel : selectLoop t rest (some j) = some i ∨ selectLoop t rest high = some i := by
        cases high <;> simp only [selectLoop] at h <;> split at h <;> simp [h]
      rcases hsel with hsel | hsel
      · rcases ih (some j) hsel with e | e
        · cases e
          exact .inr hj
        · exact .inr e
      · exact ih high hsel
    · have hsel : selectLoop t rest high = some i := by
        cases high <;> simpa [selectLoop, hj] using h
      exact ih high hsel

theorem SamePids.scheduler (t : PTable) : SamePids t (Xv6.scheduler t) := by
  unfold Xv6.scheduler
  split
  · exact SamePids.refl t
  · rename_i i hi
    rcases selectLoop_runnable t slots none hi with e | e
    · cases e
    · exact SamePids.setUsed t i _ rfl (by simp [e]) (by simp)

/-! ## The invariant -/

/-- Pids and free slots: a slot is `UNUSED` exactly when its pid is `0`, and the pids in use
and `nextpid` are positive. -/
structure PidInv (t : PTable) : Prop where
  nextpid_pos : 1 ≤ t.nextpid
  unused_pid : ∀ i, (t.proc i).state = .UNUSED → (t.proc i).pid = 0
  used_pid : ∀ i, (t.proc i).state ≠ .UNUSED → 1 ≤ (t.proc i).pid

theorem PidInv.of_same {t t' : PTable} (hs : PidInv t) (h : SamePids t t') : PidInv t' := by
  refine ⟨h.1 ▸ hs.nextpid_pos, fun i hi => ?_, fun i hi => ?_⟩
  · rw [(h.2 i).1]
    exact hs.unused_pid i ((h.2 i).2.mp hi)
  · rw [(h.2 i).1]
    exact hs.used_pid i (fun e => hi ((h.2 i).2.mpr e))

/-- Under the invariant a pid is `0` exactly on the free slots. -/
theorem PidInv.pid_eq_zero_iff {t : PTable} (hs : PidInv t) (i : Fin NPROC) :
    (t.proc i).pid = 0 ↔ (t.proc i).state = .UNUSED := by
  constructor
  · intro h
    by_contra hu
    have := hs.used_pid i hu
    omega
  · exact hs.unused_pid i

theorem PidInv.setUsed {t : PTable} {i : Fin NPROC} {q : Proc} (hs : PidInv t)
    (hpid : q.pid = (t.proc i).pid) (hi : (t.proc i).state ≠ .UNUSED) (hq : q.state ≠ .UNUSED) :
    PidInv (t.set i q) :=
  hs.of_same (SamePids.setUsed t i q hpid hi hq)

theorem PidInv.freeproc {t : PTable} (hs : PidInv t) (i : Fin NPROC) :
    PidInv (Xv6.freeproc t i) := by
  refine ⟨hs.nextpid_pos, fun j hj => ?_, fun j hj => ?_⟩
  · by_cases hji : j = i
    · subst hji
      simp [Xv6.freeproc]
    · simp only [Xv6.freeproc, PTable.set_proc_of_ne _ _ hji] at hj ⊢
      exact hs.unused_pid j hj
  · by_cases hji : j = i
    · subst hji
      simp [Xv6.freeproc] at hj
    · simp only [Xv6.freeproc, PTable.set_proc_of_ne _ _ hji] at hj ⊢
      exact hs.used_pid j hj

/-- `findUnused` returns a free slot. -/
theorem findUnused_unused {t : PTable} {l : List (Fin NPROC)} {i : Fin NPROC}
    (h : findUnused t l = some i) : (t.proc i).state = .UNUSED := by
  induction l with
  | nil => simp [findUnused] at h
  | cons j rest ih =>
    simp only [findUnused] at h
    split at h
    · rename_i hj
      cases h
      exact hj
    · exact ih h

/-- Everything `allocproc` can do: find no free slot and change nothing, or take the first
free slot `i`, advance `nextpid`, and mark the slot `USED` with the old `nextpid`, leaving its
other fields (`killed` among them) as they were; then either return it, or free it again when an
allocation failed. -/
theorem allocproc_cases (t : PTable) (tf pt : Nat) :
    (findUnused t slots = none ∧ allocproc t tf pt = (t, none)) ∨
      ∃ i q, findUnused t slots = some i ∧ q.state = .USED ∧ q.pid = t.nextpid ∧
        q.killed = (t.proc i).killed ∧ q.parent = (t.proc i).parent ∧
        ((tf ≠ 0 ∧ pt ≠ 0 ∧
            allocproc t tf pt = (({ t with nextpid := t.nextpid + 1 } : PTable).set i q, some i)) ∨
          ((tf = 0 ∨ pt = 0) ∧ allocproc t tf pt =
            (Xv6.freeproc (({ t with nextpid := t.nextpid + 1 } : PTable).set i q) i, none))) := by
  cases h : findUnused t slots with
  | none => simp [allocproc, h]
  | some i =>
    right
    simp only [allocproc, h, allocpid]
    let q : Proc := { t.proc i with
      pid := t.nextpid, state := .USED, priority := if t.nextpid % 2 = 0 then 10 else 1,
      trapframe := tf }
    by_cases htf : tf = 0
    · refine ⟨i, q, rfl, rfl, rfl, rfl, rfl, .inr ⟨.inl htf, ?_⟩⟩
      rw [if_pos htf]
      rfl
    · by_cases hpt : pt = 0
      · refine ⟨i, { q with pagetable := pt }, rfl, rfl, rfl, rfl, rfl, .inr ⟨.inr hpt, ?_⟩⟩
        rw [if_neg htf, if_pos hpt]
        rfl
      · refine ⟨i, { q with pagetable := pt }, rfl, rfl, rfl, rfl, rfl, .inl ⟨htf, hpt, ?_⟩⟩
        rw [if_neg htf, if_neg hpt]
        rfl

/-- The table `allocproc` builds before its allocations. -/
theorem PidInv.claimSlot {t : PTable} (hs : PidInv t) (i : Fin NPROC) (q : Proc)
    (hq : q.state = .USED) (hpid : q.pid = t.nextpid) :
    PidInv (({ t with nextpid := t.nextpid + 1 } : PTable).set i q) := by
  refine ⟨by simp; have := hs.nextpid_pos; omega, fun j hj => ?_, fun j hj => ?_⟩
  · by_cases hji : j = i
    · subst hji
      simp [hq] at hj
    · simp only [PTable.set_proc_of_ne _ _ hji] at hj ⊢
      exact hs.unused_pid j hj
  · by_cases hji : j = i
    · subst hji
      simpa [hpid] using hs.nextpid_pos
    · simp only [PTable.set_proc_of_ne _ _ hji] at hj ⊢
      exact hs.used_pid j hj

theorem PidInv.allocproc {t : PTable} (hs : PidInv t) (tf pt : Nat) :
    PidInv (Xv6.allocproc t tf pt).1 := by
  rcases allocproc_cases t tf pt with ⟨-, h⟩ | ⟨i, q, -, hq, hpid, -, -, ⟨-, -, h⟩ | ⟨-, h⟩⟩ <;>
    rw [h]
  · exact hs
  · exact hs.claimSlot i q hq hpid
  · exact (hs.claimSlot i q hq hpid).freeproc i

theorem PidInv.kfork {t : PTable} (hs : PidInv t) (p : Fin NPROC) (tf pt : Nat) (ok : Bool) :
    PidInv (Xv6.kfork t p tf pt ok).1 := by
  rcases allocproc_cases t tf pt with ⟨-, h⟩ | ⟨i, q, -, hq, hpid, -, -, ⟨-, -, h⟩ | ⟨-, h⟩⟩
  · simpa [Xv6.kfork, h] using hs
  · have h1 := hs.claimSlot i q hq hpid
    cases ok
    · simpa [Xv6.kfork, h] using h1.freeproc i
    · simp only [Xv6.kfork, h, Bool.not_true, Bool.false_eq_true, if_false]
      refine PidInv.setUsed (PidInv.setUsed (PidInv.setUsed h1 rfl ?_ ?_) rfl ?_ ?_) rfl ?_ ?_ <;>
        simp [hq]
  · cases ok <;> simpa [Xv6.kfork, h] using (hs.claimSlot i q hq hpid).freeproc i

/-- `kexit` changes the exiting process's state to `ZOMBIE` and otherwise only parents and
sleeping states. -/
theorem SamePids.kexit {t t' : PTable} {p : Fin NPROC} {status : Int} (hp : t.Running p)
    (h : Xv6.kexit t p status = some t') : SamePids t t' := by
  unfold Xv6.kexit Xv6.reparent at h
  split at h
  · cases h
  · simp only [Option.some.injEq] at h
    subst h
    have h1 : SamePids t (Xv6.wakeup (Xv6.reparentLoop p slots t) (some p)
        (((Xv6.reparentLoop p slots t).proc p).parent.map Chan.proc)) :=
      (SamePids.reparentLoop p slots t).trans (SamePids.wakeup _ _ _)
    refine h1.trans (SamePids.setUsed _ _ _ rfl (fun hu => ?_) (by simp))
    have := (h1.2 p).2.mp hu
    rw [hp] at this
    cases this

/-- Everything one pass of `kwait` can do to the table: nothing, free a zombie child, or put
the caller to sleep on its own address. -/
theorem kwaitLoop_cases (p : Fin NPROC) (addr : Nat) (ok : Bool) (l : List (Fin NPROC))
    (havekids : Bool) (t : PTable) :
    (kwaitLoop p addr ok l havekids t).1 = t ∨
      (∃ pp, (kwaitLoop p addr ok l havekids t).1 = Xv6.freeproc t pp) ∨
        (kwaitLoop p addr ok l havekids t).1 = Xv6.sleep t p (.proc p) := by
  induction l generalizing havekids with
  | nil =>
    simp only [kwaitLoop]
    split
    · exact .inl rfl
    · exact .inr (.inr rfl)
  | cons pp rest ih =>
    simp only [kwaitLoop]
    split
    · split
      · split
        · exact .inl rfl
        · exact .inr (.inl ⟨pp, rfl⟩)
      · exact ih true
    · exact ih havekids

theorem PidInv.kwait {t : PTable} (hs : PidInv t) {p : Fin NPROC} (hp : t.Running p) (addr : Nat)
    (ok : Bool) : PidInv (Xv6.kwait t p addr ok).1 := by
  rcases kwaitLoop_cases p addr ok slots false t with h | ⟨pp, h⟩ | h <;>
    simp only [Xv6.kwait, h]
  · exact hs
  · exact hs.freeproc pp
  · exact hs.of_same (SamePids.setUsed _ _ _ rfl (by rw [hp]; decide) (by simp))

/-- Every step of the process table keeps pids and free slots in step. -/
theorem PidInv.step {t t' : PTable} {e : PEvent} (hs : PidInv t) (h : PStep t e t') :
    PidInv t' := by
  cases h with
  | fork hp => exact hs.kfork _ _ _ _
  | exit hp hex => exact hs.of_same (SamePids.kexit hp hex)
  | wait hp => exact hs.kwait hp _ _
  | kill hp => exact hs.of_same (SamePids.kkillLoop _ _ _)
  | setkilled hp => exact hs.of_same (SamePids.set _ _ _ rfl Iff.rfl)
  | yield hp => exact hs.of_same (SamePids.setUsed _ _ _ rfl (by rw [hp]; decide) (by simp))
  | sleep hp => exact hs.of_same (SamePids.setUsed _ _ _ rfl (by rw [hp]; decide) (by simp))
  | wakeup hme => exact hs.of_same (SamePids.wakeup _ _ _)
  | schedule => exact hs.of_same (SamePids.scheduler _)

theorem PidInv.userinit {tf pt : Nat} {t0 : PTable} (h : Xv6.userinit tf pt = some t0) :
    PidInv t0 := by
  have hz : PidInv PTable.zero := ⟨le_rfl, fun _ _ => rfl, fun _ h => absurd rfl h⟩
  unfold Xv6.userinit at h
  rcases allocproc_cases PTable.zero tf pt with ⟨-, ha⟩ | ⟨i, q, -, hq, hpid, -, -, ⟨-, -, ha⟩ | ⟨-, ha⟩⟩ <;>
    rw [ha] at h
  · cases h
  · simp only [Option.some.injEq] at h
    subst h
    exact (hz.claimSlot i q hq hpid).of_same (SamePids.setUsed _ _ _ rfl (by simp [hq]) (by simp))
  · cases h

/-- Pids and free slots stay in step along every run from `userinit`. -/
theorem PidInv.reachable {tf pt : Nat} {t0 t : PTable} {evs : List PEvent}
    (hboot : Xv6.userinit tf pt = some t0) (hrun : Trace.Run PStep t0 evs t) : PidInv t :=
  Trace.Run.invariant (PidInv.userinit hboot) (fun _ _ _ hs h => hs.step h) hrun

/-! ## `kkill(0)` and the kill flag of a free slot -/

/-- `findUnused` reads only the states of the slots. -/
theorem findUnused_congr {t t' : PTable} (h : ∀ j, (t'.proc j).state = (t.proc j).state)
    (l : List (Fin NPROC)) : findUnused t' l = findUnused t l := by
  induction l with
  | nil => rfl
  | cons j rest ih => simp only [findUnused, h j, ih]

/-- Under the invariant, the slot `kkill(0)` matches is the first free one: it marks that
slot killed and returns `0`, or returns `-1` when no slot is free. -/
theorem kkillLoop_zero {t : PTable} (hs : PidInv t) (l : List (Fin NPROC)) :
    kkillLoop 0 l t = match findUnused t l with
      | some i => (t.set i { t.proc i with killed := 1 }, 0)
      | none => (t, -1) := by
  induction l with
  | nil => rfl
  | cons i rest ih =>
    by_cases hu : (t.proc i).state = .UNUSED
    · have hpid : (t.proc i).pid = 0 := hs.unused_pid i hu
      simp [kkillLoop, findUnused, hu, hpid]
    · have hpid : (t.proc i).pid ≠ 0 := fun e => hu ((hs.pid_eq_zero_iff i).mp e)
      simp only [kkillLoop, findUnused, hpid, hu, if_false]
      exact ih

/-- With a free slot `i` first in line, `kkill(0)` returns `0` and sets `killed` on the
still-`UNUSED` slot `i`; a `kfork` whose allocations succeed then hands out slot `i` as a
`RUNNABLE` child that is already killed. -/
theorem kill_zero_then_fork {t : PTable} (hs : PidInv t) {i p : Fin NPROC}
    (hi : findUnused t slots = some i) {tf pt : Nat} (htf : tf ≠ 0) (hpt : pt ≠ 0) :
    (kkill t 0).2 = 0 ∧ ((kkill t 0).1.proc i).state = .UNUSED ∧
      ((kkill t 0).1.proc i).killed = 1 ∧
      (kfork (kkill t 0).1 p tf pt true).2 = t.nextpid ∧
      ((kfork (kkill t 0).1 p tf pt true).1.proc i).state = .RUNNABLE ∧
      ((kfork (kkill t 0).1 p tf pt true).1.proc i).parent = some p ∧
      ((kfork (kkill t 0).1 p tf pt true).1.proc i).killed = 1 := by
  have hkill : kkill t 0 = (t.set i { t.proc i with killed := 1 }, 0) := by
    rw [kkill, kkillLoop_zero hs, hi]
  have hu : (t.proc i).state = .UNUSED := findUnused_unused hi
  rw [hkill]
  set t₁ := t.set i { t.proc i with killed := 1 } with ht₁
  have hsame : ∀ j, (t₁.proc j).state = (t.proc j).state := by
    intro j
    by_cases hj : j = i
    · subst hj
      simp [t₁]
    · simp [t₁, hj]
  have hi₁ : findUnused t₁ slots = some i := (findUnused_congr hsame slots).trans hi
  rcases allocproc_cases t₁ tf pt with ⟨hn, -⟩ | ⟨i', q, hi', hq, hpid, hkq, -, ⟨-, -, ha⟩ | ⟨hfail, -⟩⟩
  · rw [hi₁] at hn
    cases hn
  · rw [hi₁, Option.some.injEq] at hi'
    subst hi'
    have hk : (t₁.proc i).killed = 1 := by simp [t₁]
    refine ⟨rfl, by simp [t₁, hu], hk, ?_⟩
    simp [Xv6.kfork, ha, hq, hpid, hkq, t₁]
  · omega

/-- From every state reached from `userinit` in which some process runs and some slot is
free, the run `kill(0)` then `fork()` by that process is possible, `kill(0)` returns `0`, and
the child `fork` creates is killed before it ever runs. -/
theorem kill_zero_forks_killed_child {tf pt : Nat} {t0 t : PTable} {evs : List PEvent}
    (hboot : userinit tf pt = some t0) (hrun : Trace.Run PStep t0 evs t) {p i : Fin NPROC}
    (hp : t.Running p) (hi : findUnused t slots = some i) {tf' pt' : Nat} (htf : tf' ≠ 0)
    (hpt : pt' ≠ 0) :
    Trace.Run PStep t0 (evs ++ [.kill p 0, .fork p tf' pt' true])
        (kfork (kkill t 0).1 p tf' pt' true).1 ∧
      (kkill t 0).2 = 0 ∧ ((kfork (kkill t 0).1 p tf' pt' true).1.proc i).parent = some p ∧
      ((kfork (kkill t 0).1 p tf' pt' true).1.proc i).killed = 1 := by
  have hs := PidInv.reachable hboot hrun
  obtain ⟨hret, -, -, -, -, hpar, hk⟩ := kill_zero_then_fork hs (p := p) hi htf hpt
  have hp₁ : (kkill t 0).1.Running p := by
    have hne : p ≠ i := by
      intro e
      rw [e] at hp
      rw [PTable.Running, findUnused_unused hi] at hp
      cases hp
    have hkill : kkill t 0 = (t.set i { t.proc i with killed := 1 }, 0) := by
      rw [kkill, kkillLoop_zero hs, hi]
    rw [hkill]
    simpa [PTable.Running, hne] using hp
  have hrun' := (hrun.snoc (@PStep.kill t p 0 hp)).snoc (@PStep.fork _ p tf' pt' true hp₁)
  exact ⟨by simpa using hrun', hret, hpar, hk⟩

/-- The failing run from boot: `init` is scheduled, calls `kill(0)`, which returns `0`, and
then `fork()`; the child, pid `2` in slot `1`, starts `RUNNABLE` with `killed = 1`. -/
theorem init_kill_zero_fork_child_killed :
    (userinit 0x87fff000 0x87ffe000).isSome ∧
      Trace.Run PStep ((userinit 0x87fff000 0x87ffe000).getD PTable.zero)
        [.schedule, .kill initproc 0, .fork initproc 0x87ffa000 0x87ff9000 true]
        (kfork (kkill (scheduler ((userinit 0x87fff000 0x87ffe000).getD PTable.zero)) 0).1
          initproc 0x87ffa000 0x87ff9000 true).1 ∧
      (kkill (scheduler ((userinit 0x87fff000 0x87ffe000).getD PTable.zero)) 0).2 = 0 ∧
      (kfork (kkill (scheduler ((userinit 0x87fff000 0x87ffe000).getD PTable.zero)) 0).1
          initproc 0x87ffa000 0x87ff9000 true).2 = 2 ∧
      ((kfork (kkill (scheduler ((userinit 0x87fff000 0x87ffe000).getD PTable.zero)) 0).1
          initproc 0x87ffa000 0x87ff9000 true).1.proc ⟨1, by decide⟩).state = .RUNNABLE ∧
      ((kfork (kkill (scheduler ((userinit 0x87fff000 0x87ffe000).getD PTable.zero)) 0).1
          initproc 0x87ffa000 0x87ff9000 true).1.proc ⟨1, by decide⟩).killed = 1 := by
  have hsome : (userinit 0x87fff000 0x87ffe000).isSome := by decide
  have hboot : userinit 0x87fff000 0x87ffe000 =
      some ((userinit 0x87fff000 0x87ffe000).getD PTable.zero) := by
    cases h : userinit 0x87fff000 0x87ffe000 with
    | none => simp [h] at hsome
    | some t0 => rfl
  -- once `init` is scheduled it runs and slot `1` is the first free one: the general run
  have h1 := Trace.Run.single (PStep.schedule (t := (userinit 0x87fff000 0x87ffe000).getD PTable.zero))
  obtain ⟨hrun, hret, -, hk⟩ := kill_zero_forks_killed_child hboot h1 (p := initproc)
    (i := ⟨1, by decide⟩) (by decide) (by decide) (by decide : 0x87ffa000 ≠ 0)
    (by decide : 0x87ff9000 ≠ 0)
  exact ⟨hsome, hrun, hret, by decide, by decide, hk⟩

end Xv6
