import Xv6.Vm
import Xv6.Proc

/-!
# The memory of processes

What the process calls do to physical memory: the allocations of `allocproc` and the frees
of `freeproc` in `kernel/proc.c`, `kfork`'s `uvmcopy`, `growproc` and `sys_sbrk` (eager and
lazy), and `kexec` of `kernel/exec.c`. Together with the process table of `Xv6.Proc` they make
one system, whose events are the system calls and traps that touch user memory, and every
other event of the process table, which does not.

A process is the record `Proc` of the process table: the calls here read and write its
`pagetable`, `sz` and `trapframe`. The executable `kexec` loads is given by what `readi`
returns for it: whether the ELF header is there, each program header, and whether the reads of
each segment's bytes succeed. The argument strings are in kernel pages already; only their
lengths matter to the stack. What is written into the trapframe and the process's name is not
modelled.
-/

namespace Xv6

/-- `SBRK_EAGER`. -/
def SBRK_EAGER : Int := 1

/-- `ELF_PROG_LOAD`. -/
def ELF_PROG_LOAD : Nat := 1

/-- `struct proghdr`, the fields `kexec` reads. -/
structure Proghdr where
  type : Nat
  flags : Nat
  vaddr : UInt64
  memsz : UInt64
  filesz : UInt64
  deriving DecidableEq, Repr

/-- What `kexec` reads for one program header: the header (`none` when `readi` of it comes
up short) and whether `readi` of the segment's page at byte `i` comes back whole. -/
structure ElfSeg where
  ph : Option Proghdr
  readOk : Nat → Bool

/-- `flags2perm(flags)`: ELF permissions to PTE permission bits. -/
def flags2perm (flags : Nat) : Nat :=
  let perm := if flags &&& 0x1 ≠ 0 then PTE_X else 0
  if flags &&& 0x2 ≠ 0 then perm ||| PTE_W else perm

/-- The loop of `loadseg(pagetable, va, ip, offset, sz)` over `n` pages from byte `i`. The
bytes read go into user pages. -/
def loadsegLoop (pagetable va : Nat) (readOk : Nat → Bool) : Nat → Nat → Vm → Except String Int
  | 0, _, _ => .ok 0
  | n + 1, i, vm => do
    let pa ← walkaddr pagetable (va + i) vm
    if pa = 0 then throw "loadseg: address should exist"
    if !readOk i then return -1
    loadsegLoop pagetable va readOk n (i + PGSIZE) vm

/-- `loadseg(pagetable, va, ip, offset, sz)`: `0`, or `-1` when a read comes up short. -/
def loadseg (pagetable va sz : Nat) (readOk : Nat → Bool) (vm : Vm) : Except String Int :=
  loadsegLoop pagetable va readOk ((sz + PGSIZE - 1) / PGSIZE) 0 vm

section Calls

variable («end» trampoline : Nat)

/-- The frees of `freeproc(p)`: the trapframe page, and the page table with the user
memory. -/
def freeprocMem (p : Proc) (vm : Vm) : Except String Vm := do
  let vm ← if p.trapframe ≠ 0 then vm.kfree «end» p.trapframe else pure vm
  if p.pagetable ≠ 0 then procFreepagetable «end» p.pagetable p.sz vm else pure vm

/-- The allocations of `allocproc()` once it has claimed the `UNUSED` slot holding `p`: the
trapframe page and the page table (`0` when out of memory), with the frees of `freeproc(p)`
on the paths that give up. -/
def allocprocMem (p : Proc) (vm : Vm) : Except String (Nat × Nat × Vm) := do
  let (vm, tf) := vm.kalloc
  if tf = 0 then
    let vm ← freeprocMem «end» { p with trapframe := 0 } vm
    return (0, 0, vm)
  let (pt, vm) ← procPagetable «end» trampoline tf vm
  if pt = 0 then
    let vm ← freeprocMem «end» { p with trapframe := tf, pagetable := 0 } vm
    return (tf, 0, vm)
  return (tf, pt, vm)

/-- The memory side of `kfork()` by `p`, once `allocproc` has claimed the slot holding `np`:
the trapframe and page table `allocproc` got, and whether `uvmcopy` succeeded, with the frees
of `freeproc(np)` when it did not. -/
def kforkMem (p np : Proc) (vm : Vm) : Except String (Nat × Nat × Bool × Vm) := do
  let (tf, pt, vm) ← allocprocMem «end» trampoline np vm
  -- `allocproc` returned `0`
  if tf = 0 ∨ pt = 0 then return (tf, pt, false, vm)
  let (r, vm) ← uvmcopy «end» p.pagetable pt p.sz vm
  if r < 0 then
    let vm ← freeprocMem «end» { np with trapframe := tf, pagetable := pt } vm
    return (tf, pt, false, vm)
  return (tf, pt, true, vm)

/-- The frees of one pass of `kwait(addr)` by `p` over the slots `l`: those of `freeproc` on the
`ZOMBIE` child it reaps, unless the copy of its status to a nonzero `addr` fails. -/
def kwaitMemLoop (t : PTable) (p : Fin NPROC) (addr : Nat) (copyOk : Bool) :
    List (Fin NPROC) → Vm → Except String Vm
  | [], vm => .ok vm
  | pp :: rest, vm =>
    if (t.proc pp).parent = some p ∧ (t.proc pp).state = .ZOMBIE then
      if addr ≠ 0 ∧ !copyOk then .ok vm else freeprocMem «end» (t.proc pp) vm
    else kwaitMemLoop t p addr copyOk rest vm

/-- The frees of `kwait(addr)` by `p`. -/
def kwaitMem (t : PTable) (p : Fin NPROC) (addr : Nat) (copyOk : Bool) (vm : Vm) :
    Except String Vm :=
  kwaitMemLoop «end» t p addr copyOk slots vm

/-- `growproc(n)` by the process `p`: `0` or `-1`, and the process with its new size. `n` is
an `int`; `sz + n` is `uint64` arithmetic. -/
def growproc (p : Proc) (n : Int) (vm : Vm) : Except String (Int × Proc × Vm) := do
  let sz := p.sz
  if 0 < n then
    if TRAPFRAME < sz + n.toNat then return (-1, p, vm)
    let (sz, vm) ← uvmalloc «end» p.pagetable sz (sz + n.toNat) PTE_W vm
    if sz = 0 then return (-1, p, vm)
    return (0, { p with sz := sz }, vm)
  else if n < 0 then
    let (sz, vm) ← uvmdealloc «end» p.pagetable sz ((sz + n) % 2 ^ 64).toNat vm
    return (0, { p with sz := sz }, vm)
  else return (0, { p with sz := sz }, vm)

/-- `sys_sbrk()` with arguments `n` and `t` by the process `p`: the old size or `-1`, and the
process. A lazy `sbrk` only raises the size; `vmfault` maps the pages when they are used. -/
def sysSbrk (p : Proc) (n t : Int) (vm : Vm) : Except String (Int × Proc × Vm) := do
  let addr := p.sz
  if t = SBRK_EAGER ∨ n < 0 then
    let (r, p, vm) ← growproc «end» p n vm
    if r < 0 then return (-1, p, vm)
    return (addr, p, vm)
  else
    if ((addr + n) % 2 ^ 64).toNat < addr then return (-1, p, vm)
    if TRAPFRAME < addr + n.toNat then return (-1, p, vm)
    return (addr, { p with sz := p.sz + n.toNat }, vm)

/-! ## `kexec` -/

/-- The loop of `kexec` over the program headers, into the new page table: whether it got to
the end (`false` is `goto bad`), and the size so far. -/
def kexecLoad (pagetable : Nat) : List ElfSeg → Nat → Vm → Except String (Bool × Nat × Vm)
  | [], sz, vm => .ok (true, sz, vm)
  | seg :: segs, sz, vm =>
    match seg.ph with
    | none => .ok (false, sz, vm)
    | some ph =>
      if ph.type ≠ ELF_PROG_LOAD then kexecLoad pagetable segs sz vm
      else if ph.memsz < ph.filesz then .ok (false, sz, vm)
      else if ph.vaddr + ph.memsz < ph.vaddr then .ok (false, sz, vm)
      else if ph.vaddr.toNat % PGSIZE ≠ 0 then .ok (false, sz, vm)
      else do
        let (sz1, vm) ← uvmalloc «end» pagetable sz (ph.vaddr + ph.memsz).toNat
          (flags2perm ph.flags) vm
        if sz1 = 0 then return (false, sz, vm)
        let sz := sz1
        -- `loadseg` takes the size as a `uint`
        let r ← loadseg pagetable ph.vaddr.toNat (ph.filesz.toNat % 2 ^ 32) seg.readOk vm
        if r < 0 then return (false, sz, vm)
        kexecLoad pagetable segs sz vm

/-- The loop of `kexec` that copies the argument strings, of lengths `argv`, onto the new
stack: the count and `sp`, or `none` for `goto bad`. The process running is `p`. -/
def kexecArgs (p : Proc) (pagetable : Nat) (stackbase : UInt64) :
    List Nat → Nat → UInt64 → Vm → Except String (Option (Nat × UInt64) × Vm)
  | [], argc, sp, vm => .ok (some (argc, sp), vm)
  | len :: argv, argc, sp, vm => do
    if MAXARG ≤ argc then return (none, vm)
    let sp := sp - (len + 1).toUInt64
    -- riscv sp must be 16-byte aligned
    let sp := sp - sp % 16
    if sp < stackbase then return (none, vm)
    let (r, vm) ← copyout «end» p.sz p.pagetable pagetable sp.toNat (len + 1) vm
    if r < 0 then return (none, vm)
    kexecArgs p pagetable stackbase argv (argc + 1) sp vm

/-- `kexec` from the loop over the program headers to the copy of `ustack`, in the new page
table: `argc` (`none` for `goto bad`) and the size reached. -/
def kexecImage (p : Proc) (pagetable : Nat) (segs : List ElfSeg) (argv : List Nat) (vm : Vm) :
    Except String (Option Nat × Nat × Vm) := do
  let (ok, sz, vm) ← kexecLoad «end» pagetable segs 0 vm
  if !ok then return (none, sz, vm)
  -- the stack guard page, then the user stack, at the next page boundary
  let sz := PGROUNDUP sz
  let (sz1, vm) ← uvmalloc «end» pagetable sz (sz + (USERSTACK + 1) * PGSIZE) PTE_W vm
  if sz1 = 0 then return (none, sz, vm)
  let sz := sz1
  let vm ← uvmclear pagetable (sz - (USERSTACK + 1) * PGSIZE) vm
  let sp : UInt64 := sz.toUInt64
  let stackbase := sp - (USERSTACK * PGSIZE).toUInt64
  let (r, vm) ← kexecArgs «end» p pagetable stackbase argv 0 sp vm
  let some (argc, sp) := r | return (none, sz, vm)
  -- push the array of `argv[]` pointers
  let sp := sp - ((argc + 1) * 8).toUInt64
  let sp := sp - sp % 16
  if sp < stackbase then return (none, sz, vm)
  let (r, vm) ← copyout «end» p.sz p.pagetable pagetable sp.toNat ((argc + 1) * 8) vm
  if r < 0 then return (none, sz, vm)
  return (some argc, sz, vm)

/-- `kexec(path, argv)` by the process `p`, where `elfOk` says whether the file is there with
a whole ELF header of the right magic: `argc` or `-1`, and the process with its new page
table and size. -/
def kexec (p : Proc) (elfOk : Bool) (segs : List ElfSeg) (argv : List Nat) (vm : Vm) :
    Except String (Int × Proc × Vm) := do
  if !elfOk then return (-1, p, vm)
  let (pagetable, vm) ← procPagetable «end» trampoline p.trapframe vm
  if pagetable = 0 then return (-1, p, vm)
  let (r, sz, vm) ← kexecImage «end» p pagetable segs argv vm
  match r with
  | none =>
    let vm ← procFreepagetable «end» pagetable sz vm
    return (-1, p, vm)
  | some argc =>
    -- commit to the user image
    let vm ← procFreepagetable «end» p.pagetable p.sz vm
    return (argc, { p with pagetable := pagetable, sz := sz }, vm)

/-! ## The system -/

/-- The process table and physical memory. -/
structure MemSys where
  t : PTable
  vm : Vm

/-- `kfork()` by `p` on both: the table as `Xv6.kfork` leaves it given what the memory side
got. With no `UNUSED` slot nothing is allocated. -/
def MemSys.fork (s : MemSys) (p : Fin NPROC) : Except String MemSys :=
  match findUnused s.t slots with
  | none => .ok s
  | some np => do
    let (tf, pt, ok, vm) ← kforkMem «end» trampoline (s.t.proc p) (s.t.proc np) s.vm
    return { t := (kfork s.t p tf pt ok).1, vm := vm }

/-- The process-table events that do not touch user memory: all but `fork` and `wait`. -/
def PEvent.keepsMemory : PEvent → Bool
  | .fork .. => false
  | .wait .. => false
  | _ => true

/-- One event of the system. -/
inductive MEvent where
  /-- An event of the process table alone. -/
  | proc (e : PEvent)
  | fork (p : Fin NPROC)
  | wait (p : Fin NPROC) (addr : Nat) (copyOk : Bool)
  | sbrk (p : Fin NPROC) (n t : Int)
  /-- A page fault in user space: `usertrap` calls `vmfault` at `stval`. -/
  | fault (p : Fin NPROC) (va : Nat)
  /-- `copyout` or `copyin` by a system call of `p`, in its own page table. -/
  | copyout (p : Fin NPROC) (dstva len : Nat)
  | copyin (p : Fin NPROC) (srcva len : Nat)
  | exec (p : Fin NPROC) (elfOk : Bool) (segs : List ElfSeg) (argv : List Nat)

/-- The effect of each event, with the caller running. A panic has no successor. -/
inductive MStep : MemSys → MEvent → MemSys → Prop where
  | proc {s t e} : e.keepsMemory = true → PStep s.t e t → MStep s (.proc e) { s with t := t }
  | fork {s s' p} : s.t.Running p → s.fork «end» trampoline p = .ok s' → MStep s (.fork p) s'
  | wait {s vm p addr ok} : s.t.Running p → kwaitMem «end» s.t p addr ok s.vm = .ok vm →
      MStep s (.wait p addr ok) { t := (kwait s.t p addr ok).1, vm := vm }
  | sbrk {s p n t' r q vm} : s.t.Running p → sysSbrk «end» (s.t.proc p) n t' s.vm = .ok (r, q, vm) →
      MStep s (.sbrk p n t') { t := s.t.set p q, vm := vm }
  | fault {s p va r vm} : s.t.Running p →
      vmfault «end» (s.t.proc p).sz (s.t.proc p).pagetable (s.t.proc p).pagetable va s.vm =
        .ok (r, vm) →
      MStep s (.fault p va) { s with vm := vm }
  | copyout {s p dstva len r vm} : s.t.Running p →
      copyout «end» (s.t.proc p).sz (s.t.proc p).pagetable (s.t.proc p).pagetable dstva len
        s.vm = .ok (r, vm) →
      MStep s (.copyout p dstva len) { s with vm := vm }
  | copyin {s p srcva len r vm} : s.t.Running p →
      copyin «end» (s.t.proc p).sz (s.t.proc p).pagetable (s.t.proc p).pagetable srcva len
        s.vm = .ok (r, vm) →
      MStep s (.copyin p srcva len) { s with vm := vm }
  | exec {s p elfOk segs argv r q vm} : s.t.Running p →
      kexec «end» trampoline (s.t.proc p) elfOk segs argv s.vm = .ok (r, q, vm) →
      MStep s (.exec p elfOk segs argv) { t := s.t.set p q, vm := vm }

/-- `userinit()` on the zeroed table, with memory `vm` after `kinit`: `allocproc`'s
allocations, then the table as `Xv6.userinit` leaves it. -/
def memBoot (vm : Vm) : Except String (Option MemSys) := do
  let (tf, pt, vm) ← allocprocMem «end» trampoline (PTable.zero.proc initproc) vm
  return (userinit tf pt).map fun t => { t := t, vm := vm }

end Calls

end Xv6
