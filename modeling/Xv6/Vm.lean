import Mathlib
import Xv6.Kalloc

/-!
# User page tables (`kernel/vm.c`)

The Sv39 page tables of user processes: `walk`, `walkaddr`, `mappages`, `uvmcreate`,
`uvmunmap`, `uvmalloc`, `uvmdealloc`, `freewalk`, `uvmfree`, `uvmcopy`, `uvmclear`, `copyout`,
`copyin`, `vmfault` and `ismapped`, with `proc_pagetable` and `proc_freepagetable` of
`kernel/proc.c`.

Physical memory holds, for the model, the words the page-table code reads back: word `i` of
the page at `pa` is `pagetable[i]` when that page is a page-table page, the zeroes of
`memset(mem, 0, PGSIZE)` (`Vm.zero`), with which `walk` and `uvmcreate` start a page-table page
and `uvmalloc` and `vmfault` a user page, and the copy of a whole page that `uvmcopy` makes with
`memmove(mem, pa, PGSIZE)` (`Vm.copy`). What `copyout` and `loadseg` write into user pages, and
the junk `kalloc` and `kfree` fill pages with, are not modelled. Pages come from
the allocator of `kernel/kalloc.c`. A panic stops the kernel: the calls return `Except String`.

A PTE is a `uint64`, and the PTE and address macros of `kernel/riscv.h` are the shifts and
masks of the source. The loops `for(a = va; a < last; a += PGSIZE)` run over a count of pages
computed from their bounds, so that each is a structural recursion.
-/

namespace Xv6

/-! ## Sv39 (`kernel/riscv.h`, `kernel/memlayout.h`) -/

/-- `PGSHIFT`: bits of offset within a page. -/
def PGSHIFT : Nat := 12

/-- `PTE_V`: valid. -/
def PTE_V : Nat := 1 <<< 0

/-- `PTE_R`: readable. -/
def PTE_R : Nat := 1 <<< 1

/-- `PTE_W`: writable. -/
def PTE_W : Nat := 1 <<< 2

/-- `PTE_X`: executable. -/
def PTE_X : Nat := 1 <<< 3

/-- `PTE_U`: user can access. -/
def PTE_U : Nat := 1 <<< 4

/-- `PA2PTE(pa)`: shift a physical address to the right place for a PTE. -/
def PA2PTE (pa : Nat) : Nat := (pa >>> 12) <<< 10

/-- `PTE2PA(pte)`. -/
def PTE2PA (pte : Nat) : Nat := (pte >>> 10) <<< 12

/-- `PTE_FLAGS(pte)`. -/
def PTE_FLAGS (pte : Nat) : Nat := pte &&& 0x3FF

/-- `PXMASK`: 9 bits. -/
def PXMASK : Nat := 0x1FF

/-- `PXSHIFT(level)`. -/
def PXSHIFT (level : Nat) : Nat := PGSHIFT + 9 * level

/-- `PX(level, va)`: the index of `va` in the page-table page of `level`. -/
def PX (level va : Nat) : Nat := (va >>> PXSHIFT level) &&& PXMASK

/-- `MAXVA`: one beyond the highest possible virtual address, one bit less than Sv39 allows
to avoid sign extension. -/
def MAXVA : Nat := 1 <<< (9 + 9 + 9 + 12 - 1)

/-- `TRAMPOLINE`: the trampoline page, at the highest user virtual address. -/
def TRAMPOLINE : Nat := MAXVA - PGSIZE

/-- `TRAPFRAME`: the trapframe page, just below the trampoline. -/
def TRAPFRAME : Nat := TRAMPOLINE - PGSIZE

/-! ## Physical memory -/

/-- Physical memory, as the page-table code sees it, and the allocator. -/
structure Vm where
  kmem : Kmem
  /-- Word `i` of the page at `pa`. -/
  mem : Nat → Nat → Nat
  /-- The calls made to the allocator so far, in order: a history variable, which no function
  reads, for stating what the allocator is asked. -/
  calls : List KEvent

namespace Vm

/-- Store `v` in word `i` of the page at `pa`. -/
def write (vm : Vm) (pa i v : Nat) : Vm :=
  { vm with mem := Function.update vm.mem pa (Function.update (vm.mem pa) i v) }

/-- `memset(pa, 0, PGSIZE)`. -/
def zero (vm : Vm) (pa : Nat) : Vm :=
  { vm with mem := Function.update vm.mem pa fun _ => 0 }

/-- `memmove(dst, src, PGSIZE)`: the page at `dst` becomes a copy of the page at `src`. -/
def copy (vm : Vm) (dst src : Nat) : Vm :=
  { vm with mem := Function.update vm.mem dst (vm.mem src) }

/-- `kalloc()`: the page returned, `0` when none is left. -/
def kalloc (vm : Vm) : Vm × Nat :=
  let (k, r) := Xv6.kalloc vm.kmem
  ({ vm with kmem := k, calls := vm.calls ++ [.kalloc r] }, r)

/-- `kfree(pa)`, which panics on a page outside the allocator's range. -/
def kfree («end» : Nat) (vm : Vm) (pa : Nat) : Except String Vm :=
  match Xv6.kfree «end» vm.kmem pa with
  | some k => .ok { vm with kmem := k, calls := vm.calls ++ [.kfree pa] }
  | none => .error "kfree"

end Vm

/-! ## Walking and mapping -/

/-- One round of the loop of `walk(pagetable, va, alloc)`, at `level`: the next page-table
page, or `none` for `return 0`. A missing page is allocated and zeroed when `alloc` is set. -/
def walkLevel (alloc : Bool) (va level pagetable : Nat) (vm : Vm) : Option Nat × Vm :=
  let pte := vm.mem pagetable (PX level va)
  if pte &&& PTE_V ≠ 0 then (some (PTE2PA pte), vm)
  else if !alloc then (none, vm)
  else
    let (vm, pg) := vm.kalloc
    if pg = 0 then (none, vm)
    else (some pg, (vm.zero pg).write pagetable (PX level va) (PA2PTE pg ||| PTE_V))

/-- `walk(pagetable, va, alloc)`: the PTE of `va`, as its page-table page and its index;
`none` is `0`. -/
def walk (pagetable va : Nat) (alloc : Bool) (vm : Vm) :
    Except String (Option (Nat × Nat) × Vm) :=
  if MAXVA ≤ va then .error "walk"
  else
    -- the loop over `level = 2, 1`
    match walkLevel alloc va 2 pagetable vm with
    | (none, vm) => .ok (none, vm)
    | (some pagetable, vm) =>
      match walkLevel alloc va 1 pagetable vm with
      | (none, vm) => .ok (none, vm)
      | (some pagetable, vm) => .ok (some (pagetable, PX 0 va), vm)

/-- `walkaddr(pagetable, va)`: the physical page of a user page, `0` when it is not mapped. -/
def walkaddr (pagetable va : Nat) (vm : Vm) : Except String Nat := do
  if MAXVA ≤ va then return 0
  let (pte, vm) ← walk pagetable va false vm
  match pte with
  | none => return 0
  | some (pg, i) =>
    if vm.mem pg i &&& PTE_V = 0 then return 0
    if vm.mem pg i &&& PTE_U = 0 then return 0
    return PTE2PA (vm.mem pg i)

/-- The loop of `mappages` over `n` pages from `a`, mapped to the pages from `pa` on. -/
def mappagesLoop (pagetable perm : Nat) : Nat → Nat → Nat → Vm → Except String (Int × Vm)
  | 0, _, _, vm => .ok (0, vm)
  | n + 1, a, pa, vm => do
    let (pte, vm) ← walk pagetable a true vm
    match pte with
    | none => return (-1, vm)
    | some (pg, i) =>
      if vm.mem pg i &&& PTE_V ≠ 0 then throw "mappages: remap"
      mappagesLoop pagetable perm n (a + PGSIZE) (pa + PGSIZE)
        (vm.write pg i (PA2PTE pa ||| perm ||| PTE_V))

/-- `mappages(pagetable, va, size, pa, perm)`. -/
def mappages (pagetable va size pa perm : Nat) (vm : Vm) : Except String (Int × Vm) :=
  if va % PGSIZE ≠ 0 then .error "mappages: va not aligned"
  else if size % PGSIZE ≠ 0 then .error "mappages: size not aligned"
  else if size = 0 then .error "mappages: size"
  -- `a` runs from `va` to `last = va + size - PGSIZE`
  else mappagesLoop pagetable perm (size / PGSIZE) va pa vm

/-- `uvmcreate()`: an empty page table, `0` when out of memory. -/
def uvmcreate (vm : Vm) : Nat × Vm :=
  let (vm, pagetable) := vm.kalloc
  if pagetable = 0 then (0, vm) else (pagetable, vm.zero pagetable)

/-- `ismapped(pagetable, va)`. -/
def ismapped (pagetable va : Nat) (vm : Vm) : Except String Bool := do
  let (pte, vm) ← walk pagetable va false vm
  match pte with
  | none => return false
  | some (pg, i) => return vm.mem pg i &&& PTE_V ≠ 0

/-- `uvmclear(pagetable, va)`: clear `PTE_U`, for the stack guard page. -/
def uvmclear (pagetable va : Nat) (vm : Vm) : Except String Vm := do
  let (pte, vm) ← walk pagetable va false vm
  match pte with
  | none => throw "uvmclear"
  | some (pg, i) => return vm.write pg i (vm.mem pg i &&& (2 ^ 64 - 1 - PTE_U))

section Free

variable («end» : Nat)

/-- The loop of `uvmunmap` over `n` pages from `a`. -/
def uvmunmapLoop (pagetable : Nat) (doFree : Bool) : Nat → Nat → Vm → Except String Vm
  | 0, _, vm => .ok vm
  | n + 1, a, vm => do
    let (pte, vm) ← walk pagetable a false vm
    match pte with
    | none => uvmunmapLoop pagetable doFree n (a + PGSIZE) vm
    | some (pg, i) =>
      if vm.mem pg i &&& PTE_V = 0 then uvmunmapLoop pagetable doFree n (a + PGSIZE) vm
      else
        let vm ← if doFree then vm.kfree «end» (PTE2PA (vm.mem pg i)) else pure vm
        uvmunmapLoop pagetable doFree n (a + PGSIZE) (vm.write pg i 0)

/-- `uvmunmap(pagetable, va, npages, do_free)`: missing mappings are skipped. -/
def uvmunmap (pagetable va npages : Nat) (doFree : Bool) (vm : Vm) : Except String Vm :=
  if va % PGSIZE ≠ 0 then .error "uvmunmap: not aligned"
  else uvmunmapLoop «end» pagetable doFree npages va vm

/-- `uvmdealloc(pagetable, oldsz, newsz)`: the new size. -/
def uvmdealloc (pagetable oldsz newsz : Nat) (vm : Vm) : Except String (Nat × Vm) := do
  if oldsz ≤ newsz then return (oldsz, vm)
  if PGROUNDUP newsz < PGROUNDUP oldsz then
    let npages := (PGROUNDUP oldsz - PGROUNDUP newsz) / PGSIZE
    let vm ← uvmunmap «end» pagetable (PGROUNDUP newsz) npages true vm
    return (newsz, vm)
  return (newsz, vm)

/-- The loop of `uvmalloc` over `n` pages from `a`; `oldsz` is already rounded up. -/
def uvmallocLoop (pagetable oldsz newsz xperm : Nat) : Nat → Nat → Vm →
    Except String (Nat × Vm)
  | 0, _, vm => .ok (newsz, vm)
  | n + 1, a, vm => do
    let (vm, mem) := vm.kalloc
    if mem = 0 then
      let (_, vm) ← uvmdealloc «end» pagetable a oldsz vm
      return (0, vm)
    let vm := vm.zero mem
    let (r, vm) ← mappages pagetable a PGSIZE mem (PTE_R ||| PTE_U ||| xperm) vm
    if r ≠ 0 then
      let vm ← vm.kfree «end» mem
      let (_, vm) ← uvmdealloc «end» pagetable a oldsz vm
      return (0, vm)
    uvmallocLoop pagetable oldsz newsz xperm n (a + PGSIZE) vm

/-- `uvmalloc(pagetable, oldsz, newsz, xperm)`: the new size, `0` on failure. -/
def uvmalloc (pagetable oldsz newsz xperm : Nat) (vm : Vm) : Except String (Nat × Vm) :=
  if newsz < oldsz then .ok (oldsz, vm)
  else
    let oldsz := PGROUNDUP oldsz
    -- `a` runs over the pages of `[oldsz, newsz)`
    uvmallocLoop «end» pagetable oldsz newsz xperm ((newsz - oldsz + PGSIZE - 1) / PGSIZE)
      oldsz vm

/-- `freewalk(pagetable)`, at most `depth` levels down. The source recurses on every valid
entry without `R`, `W` and `X`, with no bound; a table deeper than `depth` is the error
`"freewalk: depth"`, which is never reached from the three levels of Sv39 (see the proofs). -/
def freewalk : Nat → Nat → Vm → Except String Vm
  | 0, _, _ => .error "freewalk: depth"
  | depth + 1, pagetable, vm => do
    let vm ← (List.range 512).foldlM (fun vm i => do
        let pte := vm.mem pagetable i
        if pte &&& PTE_V ≠ 0 ∧ pte &&& (PTE_R ||| PTE_W ||| PTE_X) = 0 then
          -- this PTE points to a lower-level page table
          let vm ← freewalk depth (PTE2PA pte) vm
          return vm.write pagetable i 0
        else if pte &&& PTE_V ≠ 0 then throw "freewalk: leaf"
        else return vm) vm
    vm.kfree «end» pagetable

/-- `uvmfree(pagetable, sz)`: the user pages, then the page-table pages. -/
def uvmfree (pagetable sz : Nat) (vm : Vm) : Except String Vm := do
  let vm ← if 0 < sz then uvmunmap «end» pagetable 0 (PGROUNDUP sz / PGSIZE) true vm
    else pure vm
  freewalk «end» 3 pagetable vm

/-- The loop of `uvmcopy(old, new, sz)` over `n` pages from `i`. -/
def uvmcopyLoop (old new : Nat) : Nat → Nat → Vm → Except String (Int × Vm)
  | 0, _, vm => .ok (0, vm)
  | n + 1, i, vm => do
    let (pte, vm) ← walk old i false vm
    match pte with
    | none => uvmcopyLoop old new n (i + PGSIZE) vm
    | some (pg, k) =>
      if vm.mem pg k &&& PTE_V = 0 then uvmcopyLoop old new n (i + PGSIZE) vm
      else
        let pa := PTE2PA (vm.mem pg k)
        let flags := PTE_FLAGS (vm.mem pg k)
        let (vm, mem) := vm.kalloc
        -- `err:` unmaps and frees the pages copied so far
        if mem = 0 then
          let vm ← uvmunmap «end» new 0 (i / PGSIZE) true vm
          return (-1, vm)
        let vm := vm.copy mem pa
        let (r, vm) ← mappages new i PGSIZE mem flags vm
        if r ≠ 0 then
          let vm ← vm.kfree «end» mem
          let vm ← uvmunmap «end» new 0 (i / PGSIZE) true vm
          return (-1, vm)
        uvmcopyLoop old new n (i + PGSIZE) vm

/-- `uvmcopy(old, new, sz)`: `0`, or `-1` with the copy undone. -/
def uvmcopy (old new sz : Nat) (vm : Vm) : Except String (Int × Vm) :=
  uvmcopyLoop «end» old new ((sz + PGSIZE - 1) / PGSIZE) 0 vm

/-! ## Faults and copies of the running process

`vmfault` allocates on behalf of `myproc()`: it reads the process's size and maps into the
process's own page table, whatever table it was passed; `psz` and `ppagetable` are
`p->sz` and `p->pagetable`. -/

/-- `vmfault(pagetable, va, read)`: the page now mapped at `va`, `0` when `va` is beyond the
process's size or already mapped, or memory is out. -/
def vmfault (psz ppagetable pagetable va : Nat) (vm : Vm) : Except String (Nat × Vm) := do
  if psz ≤ va then return (0, vm)
  let va := PGROUNDDOWN va
  if (← ismapped pagetable va vm) then return (0, vm)
  let (vm, mem) := vm.kalloc
  if mem = 0 then return (0, vm)
  let vm := vm.zero mem
  let (r, vm) ← mappages ppagetable va PGSIZE mem (PTE_W ||| PTE_U ||| PTE_R) vm
  if r ≠ 0 then
    let vm ← vm.kfree «end» mem
    return (0, vm)
  return (mem, vm)

/-- The loop of `copyout(pagetable, dstva, src, len)`, with at most `fuel` rounds left; every
round copies at least one byte. The bytes copied are user data. -/
def copyoutLoop (psz ppagetable pagetable : Nat) : Nat → Nat → Nat → Vm →
    Except String (Int × Vm)
  | 0, _, _, vm => .ok (0, vm)
  | fuel + 1, dstva, len, vm => do
    if len = 0 then return (0, vm)
    let va0 := PGROUNDDOWN dstva
    if MAXVA ≤ va0 then return (-1, vm)
    let pa0 ← walkaddr pagetable va0 vm
    let (pa0, vm) ← if pa0 = 0 then vmfault «end» psz ppagetable pagetable va0 vm
      else pure (pa0, vm)
    if pa0 = 0 then return (-1, vm)
    let (pte, vm) ← walk pagetable va0 false vm
    match pte with
    -- `*pte` with `pte == 0` traps in the kernel
    | none => throw "kerneltrap"
    | some (pg, i) =>
      -- forbid copyout over read-only user text pages
      if vm.mem pg i &&& PTE_W = 0 then return (-1, vm)
      let n := min (PGSIZE - (dstva - va0)) len
      copyoutLoop psz ppagetable pagetable fuel (va0 + PGSIZE) (len - n) vm

/-- `copyout(pagetable, dstva, src, len)`: `0`, or `-1` on error. -/
def copyout (psz ppagetable pagetable dstva len : Nat) (vm : Vm) : Except String (Int × Vm) :=
  copyoutLoop «end» psz ppagetable pagetable len dstva len vm

/-- The loop of `copyin(pagetable, dst, srcva, len)`, with at most `fuel` rounds left. -/
def copyinLoop (psz ppagetable pagetable : Nat) : Nat → Nat → Nat → Vm →
    Except String (Int × Vm)
  | 0, _, _, vm => .ok (0, vm)
  | fuel + 1, srcva, len, vm => do
    if len = 0 then return (0, vm)
    let va0 := PGROUNDDOWN srcva
    let pa0 ← walkaddr pagetable va0 vm
    let (pa0, vm) ← if pa0 = 0 then vmfault «end» psz ppagetable pagetable va0 vm
      else pure (pa0, vm)
    if pa0 = 0 then return (-1, vm)
    let n := min (PGSIZE - (srcva - va0)) len
    copyinLoop psz ppagetable pagetable fuel (va0 + PGSIZE) (len - n) vm

/-- `copyin(pagetable, dst, srcva, len)`: `0`, or `-1` on error. -/
def copyin (psz ppagetable pagetable srcva len : Nat) (vm : Vm) : Except String (Int × Vm) :=
  copyinLoop «end» psz ppagetable pagetable len srcva len vm

/-! ## A process's page table (`kernel/proc.c`)

`trampoline` is the physical address of the trampoline code, in the kernel's text. -/

variable (trampoline : Nat)

/-- `proc_pagetable(p)` for a process whose trapframe page is `trapframe`: a page table with
only the trampoline and trapframe pages mapped, `0` when out of memory. -/
def procPagetable (trapframe : Nat) (vm : Vm) : Except String (Nat × Vm) := do
  let (pagetable, vm) := uvmcreate vm
  if pagetable = 0 then return (0, vm)
  let (r, vm) ← mappages pagetable TRAMPOLINE PGSIZE trampoline (PTE_R ||| PTE_X) vm
  if r < 0 then
    let vm ← uvmfree «end» pagetable 0 vm
    return (0, vm)
  let (r, vm) ← mappages pagetable TRAPFRAME PGSIZE trapframe (PTE_R ||| PTE_W) vm
  if r < 0 then
    let vm ← uvmunmap «end» pagetable TRAMPOLINE 1 false vm
    let vm ← uvmfree «end» pagetable 0 vm
    return (0, vm)
  return (pagetable, vm)

/-- `proc_freepagetable(pagetable, sz)`. -/
def procFreepagetable (pagetable sz : Nat) (vm : Vm) : Except String Vm := do
  let vm ← uvmunmap «end» pagetable TRAMPOLINE 1 false vm
  let vm ← uvmunmap «end» pagetable TRAPFRAME 1 false vm
  uvmfree «end» pagetable sz vm

end Free

end Xv6
