import Xv6.Vm
import Xv6.Proc

/-!
# `usertrap` on an exception (`kernel/trap.c`)

`usertrap()` for a trap from user space that is not a system call (`r_scause() != 8`) and that
`devintr()` does not claim, as it claims no exception: a load (`13`) or store (`15`) page fault
that `vmfault` resolves goes back to user space; any other trap is reported and marks the
process killed, and a killed process ends the trap in `kexit(-1)`. The reports (`printf`), the
saved `epc` and what `kexit` does to the process table (`Xv6.kexit`) are not part of this model.
-/

namespace Xv6

/-- How `usertrap()` ends: back to user space, or in `kexit(status)`. -/
inductive TrapEnd where
  | user
  | exit (status : Int)
  deriving DecidableEq, Repr

section Trap

variable («end» : Nat)

/-- `usertrap()` by `p` for the exception `scause` at `stval`: how it ends, the process and
memory. `vmfault` is called only for a page fault, and `setkilled(p)` when it returns `0`. -/
def usertrapException (p : Proc) (scause stval : Nat) (vm : Vm) :
    Except String (TrapEnd × Proc × Vm) := do
  let (mem, vm) ← if scause = 15 ∨ scause = 13 then
      vmfault «end» p.sz p.pagetable p.pagetable stval vm
    else pure (0, vm)
  let p := if mem ≠ 0 then p else { p with killed := 1 }
  if p.killed ≠ 0 then return (.exit (-1), p, vm)
  return (.user, p, vm)

end Trap

end Xv6
