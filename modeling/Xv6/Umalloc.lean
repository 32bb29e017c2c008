import Mathlib

/-!
# The user-level allocator (`user/umalloc.c`)

The free list of Kernighan and Ritchie: `malloc`, `free` and `morecore`, with `sbrk` of
`user/ulib.c` and the kernel's `sys_sbrk(n, SBRK_EAGER)` behind it. Memory holds one `Header`
at each address the allocator has written; pointers are byte addresses, and `Header *`
arithmetic moves by `sizeof(Header)` bytes. The static `base` lies at a fixed address below
the heap, and the heap ends at the break `brk`; `limit` stands for the largest break the kernel
grants (`TRAPFRAME`, or less when memory runs out).

The loops of `free` and `malloc` walk the circular free list; each is run with `fuel` rounds,
and `none` means the rounds ran out. Each call to `sbrk` records the `int` it received, a
history that no function reads.
-/

namespace Xv6

/-- `sizeof(Header)`: a pointer and a `uint`, aligned to a `long`. -/
def HEADER_SIZE : Nat := 16

/-- `union header`, its fields `s.ptr` (an address, `0` is null) and `s.size` (in headers). -/
structure Header where
  ptr : Nat
  size : UInt32
  deriving DecidableEq, Repr

/-- The process's side of the heap: the headers by address, the static `freep`, the address
of the static `base`, the break, the kernel's limit and the history of `sbrk` arguments. -/
structure UHeap where
  mem : Nat → Header
  freep : Nat
  base : Nat
  brk : Nat
  limit : Nat
  sbrks : List Int

/-- The heap at program start: `base` and `freep` are static, hence zero. -/
def UHeap.init (base brk limit : Nat) : UHeap := ⟨fun _ => ⟨0, 0⟩, 0, base, brk, limit, []⟩

/-- The write `a->s.ptr = q`. -/
def setPtr (mem : Nat → Header) (a q : Nat) : Nat → Header :=
  Function.update mem a { mem a with ptr := q }

/-- The write `a->s.size = n`. -/
def setSize (mem : Nat → Header) (a : Nat) (n : UInt32) : Nat → Header :=
  Function.update mem a { mem a with size := n }

@[simp] theorem setPtr_self (mem : Nat → Header) (a q : Nat) : setPtr mem a q a = ⟨q, (mem a).size⟩ := by
  simp [setPtr]

@[simp] theorem setSize_self (mem : Nat → Header) (a : Nat) (n : UInt32) :
    setSize mem a n a = ⟨(mem a).ptr, n⟩ := by
  simp [setSize]

theorem setPtr_of_ne {mem : Nat → Header} {a b : Nat} (q : Nat) (h : b ≠ a) :
    setPtr mem a q b = mem b :=
  Function.update_of_ne h _ _

theorem setSize_of_ne {mem : Nat → Header} {a b : Nat} (n : UInt32) (h : b ≠ a) :
    setSize mem a n b = mem b :=
  Function.update_of_ne h _ _

/-- `sbrk(n)`: `sys_sbrk(n, SBRK_EAGER)`, the old break or `SBRK_ERROR` (`none`). `growproc`
refuses to grow past the limit; a shrink to `sz + n` that wraps below zero leaves the size, as
`uvmdealloc` does for a new size above the old. -/
def sbrk (n : Int32) (h : UHeap) : Option Nat × UHeap :=
  let h := { h with sbrks := h.sbrks ++ [n.toInt] }
  if 0 < n.toInt then
    if h.limit < h.brk + n.toInt.toNat then (none, h)
    else (some h.brk, { h with brk := h.brk + n.toInt.toNat })
  else if n.toInt < 0 then
    (some h.brk, { h with brk := if n.toInt.natAbs ≤ h.brk then h.brk - n.toInt.natAbs else h.brk })
  else (some h.brk, h)

/-- The search loop of `free`: from `p`, the block after which `bp` belongs. -/
def freeScan (mem : Nat → Header) (bp : Nat) : Nat → Nat → Option Nat
  | 0, _ => none
  | fuel + 1, p =>
    if bp > p ∧ bp < (mem p).ptr then some p
    -- `p` is the block at the wrap-around: `bp` lies beyond either end of the list
    else if p ≥ (mem p).ptr ∧ (bp > p ∨ bp < (mem p).ptr) then some p
    else freeScan mem bp fuel (mem p).ptr

/-- `free(ap)`: put the block back after `p`, joined with the neighbour above and below. -/
def free (fuel : Nat) (ap : Nat) (h : UHeap) : Option UHeap := do
  let bp := ap - HEADER_SIZE
  let p ← freeScan h.mem bp fuel h.freep
  let mem := h.mem
  let mem :=
    if bp + HEADER_SIZE * (mem bp).size.toNat = (mem p).ptr then
      let mem := setSize mem bp ((mem bp).size + (mem (mem p).ptr).size)
      setPtr mem bp (mem (mem p).ptr).ptr
    else setPtr mem bp (mem p).ptr
  let mem :=
    if p + HEADER_SIZE * (mem p).size.toNat = bp then
      let mem := setSize mem p ((mem p).size + (mem bp).size)
      setPtr mem p (mem bp).ptr
    else setPtr mem p bp
  return { h with mem := mem, freep := p }

/-- The argument of the call `sbrk(nu * sizeof(Header))`: the product is an unsigned long, and
the conversion to `int` keeps its low 32 bits. -/
def morecoreArg (nu : UInt32) : Int32 := Int32.ofNat (nu.toNat * HEADER_SIZE)

/-- `morecore(nu)`: ask `sbrk` for at least 4096 headers and free them into the list; the new
`freep`, or `0` when `sbrk` refuses. -/
def morecore (fuel : Nat) (nu : UInt32) (h : UHeap) : Option (Nat × UHeap) :=
  let nu := if nu < 4096 then 4096 else nu
  match sbrk (morecoreArg nu) h with
  | (none, h) => some (0, h)
  | (some p, h) => do
    let h ← free fuel (p + HEADER_SIZE) { h with mem := setSize h.mem p nu }
    return (h.freep, h)

/-- The loop of `malloc` at `prevp` and `p = prevp->s.ptr`: take the first block of at least
`nunits` headers, whole or from its tail; after a whole lap, `morecore`. -/
def mallocLoop (nunits : UInt32) : Nat → Nat → Nat → UHeap → Option (Nat × UHeap)
  | 0, _, _, _ => none
  | fuel + 1, prevp, p, h =>
    if (h.mem p).size ≥ nunits then
      if (h.mem p).size = nunits then
        some (p + HEADER_SIZE, { h with mem := setPtr h.mem prevp (h.mem p).ptr, freep := prevp })
      else
        let mem := setSize h.mem p ((h.mem p).size - nunits)
        let p := p + HEADER_SIZE * (mem p).size.toNat
        some (p + HEADER_SIZE, { h with mem := setSize mem p nunits, freep := prevp })
    else if p = h.freep then
      match morecore fuel nunits h with
      | none => none
      | some (0, h) => some (0, h)
      | some (p, h) => mallocLoop nunits fuel p (h.mem p).ptr h
    else mallocLoop nunits fuel p (h.mem p).ptr h

/-- `nunits`: the headers a block of `nbytes` takes, its own header included. The sum is an
unsigned long; the quotient fits a `uint`. -/
def nunitsOf (nbytes : UInt32) : UInt32 :=
  UInt32.ofNat ((nbytes.toNat + HEADER_SIZE - 1) / HEADER_SIZE + 1)

/-- `malloc(nbytes)`: the address of the block's usable part, or `0`. The first call makes
`base` a list of its own. -/
def malloc (fuel : Nat) (nbytes : UInt32) (h : UHeap) : Option (Nat × UHeap) :=
  let nunits := nunitsOf nbytes
  let h :=
    if h.freep = 0 then
      { h with
        mem := Function.update h.mem h.base ⟨h.base, 0⟩
        freep := h.base }
    else h
  mallocLoop nunits fuel h.freep (h.mem h.freep).ptr h

end Xv6
