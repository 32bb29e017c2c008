import Mathlib
import Xv6.Param

/-!
# The process table (`kernel/proc.c`)

The table `proc[NPROC]` with the fields the process-management code reads and writes, and the
critical sections of `allocproc`, `freeproc`, `kfork`, `reparent`, `kexit`, `kwait`, `kkill`,
`setkilled`, `yield`, `sleep`, `wakeup` and the selection phase of the priority `scheduler`.
Each function below is one section under `wait_lock` and the `p->lock`s, so one atomic step.

The memory calls these functions make (`kalloc` of the trapframe, `proc_pagetable`, `uvmcopy`,
and `copyout` of the exit status) are modelled by their results, passed in as arguments: the
page returned (`0` on failure) or whether the copy succeeded. Their effect on physical memory is
the business of the allocator and page-table models. Open files, the current directory, the
name and the saved registers are not read by any function here and are left out.
-/

namespace Xv6

/-- `enum procstate`. -/
inductive Procstate where
  | UNUSED | USED | SLEEPING | RUNNABLE | RUNNING | ZOMBIE
  deriving DecidableEq, Repr

/-- A sleep channel: the address of a `struct proc` (where `kwait` sleeps and where `reparent`
wakes `initproc`) or any other kernel address. -/
inductive Chan where
  | proc (i : Fin NPROC)
  | addr (a : Nat)
  deriving DecidableEq, Repr

/-- The fields of `struct proc` that the process-management code uses. -/
structure Proc where
  state : Procstate
  /-- `void *chan`; `none` is `0`. -/
  chan : Option Chan
  killed : Int
  xstate : Int
  pid : Int
  priority : Int
  /-- `struct proc *parent`; `none` is `0`. -/
  parent : Option (Fin NPROC)
  sz : Nat
  pagetable : Nat
  trapframe : Nat
  deriving DecidableEq, Repr

/-- A zeroed slot, as the static array starts. -/
def Proc.zero : Proc :=
  { state := .UNUSED, chan := none, killed := 0, xstate := 0, pid := 0, priority := 0,
    parent := none, sz := 0, pagetable := 0, trapframe := 0 }

/-- `proc[NPROC]` and `nextpid`. -/
structure PTable where
  proc : Fin NPROC → Proc
  nextpid : Int

/-- The static state before `userinit`: every slot zero, `nextpid = 1`. -/
def PTable.zero : PTable := { proc := fun _ => Proc.zero, nextpid := 1 }

/-- Write slot `i`. -/
def PTable.set (t : PTable) (i : Fin NPROC) (p : Proc) : PTable :=
  { t with proc := Function.update t.proc i p }

@[simp]
theorem PTable.set_proc_self (t : PTable) (i : Fin NPROC) (p : Proc) : (t.set i p).proc i = p := by
  simp [PTable.set]

@[simp]
theorem PTable.set_proc_of_ne (t : PTable) {i j : Fin NPROC} (p : Proc) (h : j ≠ i) :
    (t.set i p).proc j = t.proc j := by
  simp [PTable.set, h]

@[simp]
theorem PTable.set_nextpid (t : PTable) (i : Fin NPROC) (p : Proc) : (t.set i p).nextpid = t.nextpid :=
  rfl

theorem PTable.set_proc (t : PTable) (i j : Fin NPROC) (p : Proc) :
    (t.set i p).proc j = if j = i then p else t.proc j := by
  simp [PTable.set, Function.update_apply]

/-- `initproc`: `userinit` allocates it first, so it is slot `0`. -/
def initproc : Fin NPROC := ⟨0, by decide⟩

/-- The order in which the loops `for(p = proc; p < &proc[NPROC]; p++)` visit the slots. -/
def slots : List (Fin NPROC) := List.finRange NPROC

/-- `allocpid()`: the pid handed out and the table with `nextpid` incremented. -/
def allocpid (t : PTable) : Int × PTable := (t.nextpid, { t with nextpid := t.nextpid + 1 })

/-- `freeproc(p)`. -/
def freeproc (t : PTable) (i : Fin NPROC) : PTable :=
  t.set i { t.proc i with
    trapframe := 0, pagetable := 0, sz := 0, pid := 0, parent := none, chan := none,
    killed := 0, xstate := 0, state := .UNUSED }

/-- The scan of `allocproc` for the first `UNUSED` slot. -/
def findUnused (t : PTable) : List (Fin NPROC) → Option (Fin NPROC)
  | [] => none
  | i :: is => if (t.proc i).state = .UNUSED then some i else findUnused t is

/-- `allocproc()`, given what `kalloc` returns for the trapframe and what `proc_pagetable`
returns (`0` on failure). Even pids get priority `10`, odd ones `1`. -/
def allocproc (t : PTable) (tf pt : Nat) : PTable × Option (Fin NPROC) :=
  match findUnused t slots with
  | none => (t, none)
  | some i =>
    let (pid, t) := allocpid t
    let p := { t.proc i with pid := pid, state := .USED }
    let p := { p with priority := if pid % 2 = 0 then 10 else 1 }
    let p := { p with trapframe := tf }
    if tf = 0 then (freeproc (t.set i p) i, none)
    else
      let p := { p with pagetable := pt }
      if pt = 0 then (freeproc (t.set i p) i, none)
      else (t.set i p, some i)

/-- `wakeup(chan)`, called by process `me` (`none` from an interrupt): every other process
sleeping on `chan` becomes `RUNNABLE`. -/
def wakeup (t : PTable) (me : Option (Fin NPROC)) (chan : Option Chan) : PTable :=
  { t with proc := fun i =>
      if me ≠ some i ∧ (t.proc i).state = .SLEEPING ∧ (t.proc i).chan = chan then
        { t.proc i with state := .RUNNABLE }
      else t.proc i }

/-- `sleep(chan, lk)` up to `sched()`. -/
def sleep (t : PTable) (p : Fin NPROC) (chan : Chan) : PTable :=
  t.set p { t.proc p with chan := some chan, state := .SLEEPING }

/-- `kfork()` by process `p`, given the results of `allocproc`'s allocations and whether
`uvmcopy` succeeded: the new table and the value returned. -/
def kfork (t : PTable) (p : Fin NPROC) (tf pt : Nat) (copyOk : Bool) : PTable × Int :=
  match allocproc t tf pt with
  | (t, none) => (t, -1)
  | (t, some np) =>
    if !copyOk then (freeproc t np, -1)
    else
      let t := t.set np { t.proc np with sz := (t.proc p).sz }
      let pid := (t.proc np).pid
      let t := t.set np { t.proc np with parent := some p }
      let t := t.set np { t.proc np with state := .RUNNABLE }
      (t, pid)

/-- The loop of `reparent(p)` over the slots `l`. -/
def reparentLoop (p : Fin NPROC) : List (Fin NPROC) → PTable → PTable
  | [], t => t
  | pp :: rest, t =>
    if (t.proc pp).parent = some p then
      let t := t.set pp { t.proc pp with parent := some initproc }
      reparentLoop p rest (wakeup t (some p) (some (.proc initproc)))
    else reparentLoop p rest t

/-- `reparent(p)`: pass `p`'s children to `initproc`. -/
def reparent (t : PTable) (p : Fin NPROC) : PTable := reparentLoop p slots t

/-- `kexit(status)` by process `p`, up to `sched()`; `none` is `panic("init exiting")`. -/
def kexit (t : PTable) (p : Fin NPROC) (status : Int) : Option PTable :=
  if p = initproc then none
  else
    let t := reparent t p
    let t := wakeup t (some p) ((t.proc p).parent.map Chan.proc)
    some (t.set p { t.proc p with xstate := status, state := .ZOMBIE })

/-- The scan of `kwait(addr)` by process `p` over the slots `l`, with `havekids` so far, given
whether `copyout` of a status to `addr` succeeds: the new table, the value returned (`none` when
`p` goes to sleep on its own address), and the status `copyout` stores at `addr`, if it stores
one. -/
def kwaitLoop (p : Fin NPROC) (addr : Nat) (copyOk : Bool) : List (Fin NPROC) → Bool → PTable →
    PTable × Option Int × Option Int
  | [], havekids, t =>
    if !havekids || (t.proc p).killed ≠ 0 then (t, some (-1), none)
    else (sleep t p (.proc p), none, none)
  | pp :: rest, havekids, t =>
    if (t.proc pp).parent = some p then
      if (t.proc pp).state = .ZOMBIE then
        -- with `addr == 0` the status is not copied out
        if addr ≠ 0 ∧ !copyOk then (t, some (-1), none)
        else (freeproc t pp, some (t.proc pp).pid,
          if addr ≠ 0 then some (t.proc pp).xstate else none)
      else kwaitLoop p addr copyOk rest true t
    else kwaitLoop p addr copyOk rest havekids t

/-- One pass of `kwait(addr)` by process `p`, given whether `copyout` of the status succeeds. -/
def kwait (t : PTable) (p : Fin NPROC) (addr : Nat) (copyOk : Bool) :
    PTable × Option Int × Option Int :=
  kwaitLoop p addr copyOk slots false t

/-- The loop of `kkill(pid)` over the slots `l`. -/
def kkillLoop (pid : Int) : List (Fin NPROC) → PTable → PTable × Int
  | [], t => (t, -1)
  | i :: rest, t =>
    if (t.proc i).pid = pid then
      let q := { t.proc i with killed := 1 }
      let q := if q.state = .SLEEPING then { q with state := .RUNNABLE } else q
      (t.set i q, 0)
    else kkillLoop pid rest t

/-- `kkill(pid)`. -/
def kkill (t : PTable) (pid : Int) : PTable × Int := kkillLoop pid slots t

/-- `setkilled(p)`. -/
def setkilled (t : PTable) (p : Fin NPROC) : PTable :=
  t.set p { t.proc p with killed := 1 }

/-- `yield()` by process `p`, up to `sched()`. -/
def yield (t : PTable) (p : Fin NPROC) : PTable :=
  t.set p { t.proc p with state := .RUNNABLE }

/-- The selection phase of `scheduler()` over the slots `l`: a `RUNNABLE` slot replaces the
candidate `high_p` when there is none yet or when its priority is strictly higher. -/
def selectLoop (t : PTable) : List (Fin NPROC) → Option (Fin NPROC) → Option (Fin NPROC)
  | [], high => high
  | i :: rest, high =>
    let better := match high with
      | none => true
      | some h => decide ((t.proc h).priority < (t.proc i).priority)
    if (t.proc i).state = .RUNNABLE ∧ better = true then selectLoop t rest (some i)
    else selectLoop t rest high

/-- One round of `scheduler()`: the selected slot, if any, becomes `RUNNING`. -/
def scheduler (t : PTable) : PTable :=
  match selectLoop t slots none with
  | none => t
  | some i => t.set i { t.proc i with state := .RUNNING }

/-- `userinit()` on the zeroed table, given the pages `allocproc` gets; `none` when they are
not there (the source then dereferences a null pointer). -/
def userinit (tf pt : Nat) : Option PTable :=
  match allocproc PTable.zero tf pt with
  | (t, some p) => some (t.set p { t.proc p with state := .RUNNABLE })
  | (_, none) => none

/-! ## The system calls and the scheduler as events

A process makes a system call only while it is `RUNNING` on some CPU. -/

/-- Process `p` is running. -/
def PTable.Running (t : PTable) (p : Fin NPROC) : Prop := (t.proc p).state = .RUNNING

instance (t : PTable) (p : Fin NPROC) : Decidable (t.Running p) :=
  inferInstanceAs (Decidable ((t.proc p).state = .RUNNING))

/-- One atomic step of the process table. -/
inductive PEvent where
  | fork (p : Fin NPROC) (tf pt : Nat) (copyOk : Bool)
  | exit (p : Fin NPROC) (status : Int)
  | wait (p : Fin NPROC) (addr : Nat) (copyOk : Bool)
  | kill (p : Fin NPROC) (pid : Int)
  | setkilled (p : Fin NPROC)
  | yield (p : Fin NPROC)
  | sleep (p : Fin NPROC) (chan : Chan)
  | wakeup (me : Option (Fin NPROC)) (chan : Chan)
  | schedule

/-- The effect of each event, with the caller running. -/
inductive PStep : PTable → PEvent → PTable → Prop where
  | fork {t p tf pt ok} : t.Running p → PStep t (.fork p tf pt ok) (kfork t p tf pt ok).1
  | exit {t t' p status} : t.Running p → kexit t p status = some t' →
      PStep t (.exit p status) t'
  | wait {t p addr ok} : t.Running p → PStep t (.wait p addr ok) (kwait t p addr ok).1
  | kill {t p pid} : t.Running p → PStep t (.kill p pid) (kkill t pid).1
  | setkilled {t p} : t.Running p → PStep t (.setkilled p) (setkilled t p)
  | yield {t p} : t.Running p → PStep t (.yield p) (yield t p)
  | sleep {t p chan} : t.Running p → PStep t (.sleep p chan) (sleep t p chan)
  | wakeup {t me chan} : (∀ p, me = some p → t.Running p) →
      PStep t (.wakeup me chan) (wakeup t me (some chan))
  | schedule {t} : PStep t .schedule (scheduler t)

end Xv6
