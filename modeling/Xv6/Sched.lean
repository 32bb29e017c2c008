import Xv6.Proc

/-!
# Spin locks and the selection phase of the priority scheduler

`acquire`, `release` and `holding` of `kernel/spinlock.c`, and the two phases of one round of
`scheduler()` in `kernel/proc.c` with the proc locks it takes and lets go. The selection phase
keeps the lock of its candidate `high_p` across rounds and lets it go only when a slot of
strictly higher priority replaces it. The CPU is `c`; the calls to `acquire` and `release`
are recorded in order, a history that no function reads.

`push_off` and `pop_off`, which `acquire` and `release` call, count interrupt-disable nesting;
nothing here reads that count, and it is left out.
-/

namespace Xv6

/-- `struct spinlock`: `locked`, and the CPU holding it (`none` is `0`). -/
structure Spinlock where
  locked : Bool
  cpu : Option Nat
  deriving DecidableEq, Repr

/-- A lock as `initlock` and `release` leave it. -/
def Spinlock.free : Spinlock := ⟨false, none⟩

/-- `holding(lk)` on CPU `c`. -/
def holding (c : Nat) (lk : Spinlock) : Bool := lk.locked && lk.cpu == some c

/-- `acquire(lk)` on CPU `c`: a panic when `c` holds it already. While another CPU holds it,
`acquire` spins, which changes nothing; the step is the swap that takes it. -/
def acquire (c : Nat) (lk : Spinlock) : Except String Spinlock :=
  if holding c lk then .error "acquire" else .ok ⟨true, some c⟩

/-- `release(lk)` on CPU `c`: a panic when `c` does not hold it. -/
def release (c : Nat) (lk : Spinlock) : Except String Spinlock :=
  if !holding c lk then .error "release" else .ok Spinlock.free

/-- A call on a proc lock. -/
inductive LockCall where
  | acquire (i : Fin NPROC)
  | release (i : Fin NPROC)
  deriving DecidableEq, Repr

/-- The state of the selection phase: the proc locks, the candidate `high_p` (`none` is `0`)
and the lock calls made so far. -/
structure Scan where
  locks : Fin NPROC → Spinlock
  high : Option (Fin NPROC)
  calls : List LockCall

/-- `acquire(&proc[i].lock)` on CPU `c`. -/
def Scan.acquire (c : Nat) (s : Scan) (i : Fin NPROC) : Except String Scan := do
  let lk ← Xv6.acquire c (s.locks i)
  return { s with locks := Function.update s.locks i lk, calls := s.calls ++ [.acquire i] }

/-- `release(&proc[i].lock)` on CPU `c`. -/
def Scan.release (c : Nat) (s : Scan) (i : Fin NPROC) : Except String Scan := do
  let lk ← Xv6.release c (s.locks i)
  return { s with locks := Function.update s.locks i lk, calls := s.calls ++ [.release i] }

/-- One round of the selection loop, at slot `p`. -/
def selectRound (c : Nat) (t : PTable) (s : Scan) (p : Fin NPROC) : Except String Scan := do
  let s ← s.acquire c p
  if (t.proc p).state = .RUNNABLE then
    let better := match s.high with
      | none => true
      | some h => decide ((t.proc h).priority < (t.proc p).priority)
    if better then
      let s ← match s.high with
        | none => pure s
        | some h => s.release c h
      -- `continue`: the lock of the new candidate stays held
      return { s with high := some p }
  s.release c p

/-- The selection phase of `scheduler()` on CPU `c`, from the locks `locks`. -/
def selectPhase (c : Nat) (t : PTable) (locks : Fin NPROC → Spinlock) : Except String Scan :=
  slots.foldlM (selectRound c t) ⟨locks, none, []⟩

/-- The execution phase of `scheduler()` up to `swtch`: the candidate becomes `RUNNING`, and
the new `c->proc`. -/
def runPhase (t : PTable) : Option (Fin NPROC) → PTable × Option (Fin NPROC)
  | none => (t, none)
  | some p => (t.set p { t.proc p with state := .RUNNING }, some p)

end Xv6
