import Mathlib
import Xv6.Param
import Xv6.Lib.Run

/-!
# The physical page allocator (`kernel/kalloc.c`)

The allocator hands out whole pages of `[PGROUNDUP(end), PHYSTOP)`. Its state is the free list
`kmem.freelist` (a chain of `struct run` threaded through the free pages themselves, modelled
as the list of their addresses, head first), the counter `kmem.free_pages_count`, and the
reference counts `ref_counts[PHYSTOP / PGSIZE]`, indexed by page number.

`end` is the first address after the kernel image; `kernel/kernel.ld` provides it after the
kernel's text, data and bss, which start at `KERNBASE`. It is a parameter of the model.

Each call is one atomic event: the two locks `kmem.lock` and `ref_lock` never let two calls
touch the same page at once, since a page is passed to `kref_inc` or `kfree` only by one of its
owners. The junk written by `memset` and the console line printed by `kalloc` are not state
of the allocator and are left out.
-/

namespace Xv6

/-- The number of entries of `ref_counts`. -/
def NPAGES : Nat := PHYSTOP / PGSIZE

/-- The allocator's state: `kmem.freelist`, `kmem.free_pages_count` and `ref_counts`. -/
structure Kmem where
  /-- The free pages, head of `kmem.freelist` first; `0` ends the C chain. -/
  freelist : List Nat
  /-- `kmem.free_pages_count`. -/
  freePagesCount : Int
  /-- `ref_counts`, by page number. -/
  refCounts : Nat → Int

/-- The state of the static variables before `kinit`: everything zero. -/
def Kmem.boot : Kmem := { freelist := [], freePagesCount := 0, refCounts := fun _ => 0 }

/-- `get_ref_index(pa)`. -/
def getRefIndex (pa : Nat) : Nat := pa / PGSIZE

/-- `kref_inc(pa)`. -/
def krefInc (s : Kmem) (pa : Nat) : Kmem :=
  let i := getRefIndex pa
  { s with refCounts := Function.update s.refCounts i (s.refCounts i + 1) }

/-- `kref_dec(pa)`: the new state and the new count it returns. -/
def krefDec (s : Kmem) (pa : Nat) : Kmem × Int :=
  let i := getRefIndex pa
  let currentCount := s.refCounts i - 1
  ({ s with refCounts := Function.update s.refCounts i currentCount }, currentCount)

section

variable («end» : Nat)

/-- `kfree(pa)`; `none` is the `panic("kfree")` on a misaligned or out-of-range address. The
page goes back on the free list only when `kref_dec` brings its count to `0` or below. -/
def kfree (s : Kmem) (pa : Nat) : Option Kmem :=
  if pa % PGSIZE ≠ 0 ∨ pa < «end» ∨ PHYSTOP ≤ pa then none
  else
    let (s, c) := krefDec s pa
    if 0 < c then some s
    else some { s with freelist := pa :: s.freelist, freePagesCount := s.freePagesCount + 1 }

/-- `kalloc()`: the new state and the page returned (`0` when the list is empty). As in the
source, the count of the returned page is set to `1` after the list is updated, also on the
failure path, where the index is that of address `0`. -/
def kalloc (s : Kmem) : Kmem × Nat :=
  let (s, r) := match s.freelist with
    | r :: next => ({ s with freelist := next, freePagesCount := s.freePagesCount - 1 }, r)
    | [] => (s, 0)
  ({ s with refCounts := Function.update s.refCounts (getRefIndex r) 1 }, r)

/-- The loop of `freerange(pa_start, pa_end)` from the page `p` on: set the page's count to `1`
and `kfree` it, while the page ends at or before `pa_end`. -/
def freerangeLoop (paEnd : Nat) (p : Nat) (s : Kmem) : Option Kmem :=
  if _h : p + PGSIZE ≤ paEnd then
    let s := { s with refCounts := Function.update s.refCounts (getRefIndex p) 1 }
    (kfree «end» s p).bind (freerangeLoop paEnd (p + PGSIZE))
  else some s
termination_by paEnd - p
decreasing_by have := PGSIZE_pos; omega

/-- `freerange(pa_start, pa_end)`. -/
def freerange (s : Kmem) (paStart paEnd : Nat) : Option Kmem :=
  freerangeLoop «end» paEnd (PGROUNDUP paStart) s

/-- `kinit()`, from the zeroed static state. -/
def kinit : Option Kmem :=
  freerange «end» { Kmem.boot with freePagesCount := 0 } «end» PHYSTOP

/-! ## The allocator's clients

What a caller observes of one call, and the calls the allocator's contract allows: any
`kalloc`, and `kref_inc` or `kfree` of a page whose count is at least `1`. -/

/-- One call with what it returned (`kalloc`) or what it was passed. -/
inductive KEvent where
  | kalloc (r : Nat)
  | krefInc (pa : Nat)
  | kfree (pa : Nat)
  deriving DecidableEq, Repr

/-- One allowed call and its effect. -/
inductive KStep : Kmem → KEvent → Kmem → Prop where
  | kalloc {s s' : Kmem} {r : Nat} : kalloc s = (s', r) → KStep s (.kalloc r) s'
  | krefInc {s : Kmem} {pa : Nat} :
      1 ≤ s.refCounts (getRefIndex pa) → KStep s (.krefInc pa) (krefInc s pa)
  | kfree {s s' : Kmem} {pa : Nat} :
      1 ≤ s.refCounts (getRefIndex pa) → kfree «end» s pa = some s' → KStep s (.kfree pa) s'

/-- The pages the allocator manages: the page-aligned pages of `[PGROUNDUP(end), PHYSTOP)`. -/
def Managed (p : Nat) : Prop :=
  p % PGSIZE = 0 ∧ PGROUNDUP «end» ≤ p ∧ p + PGSIZE ≤ PHYSTOP

instance (p : Nat) : Decidable (Managed «end» p) :=
  inferInstanceAs (Decidable (p % PGSIZE = 0 ∧ PGROUNDUP «end» ≤ p ∧ p + PGSIZE ≤ PHYSTOP))

end

/-- `kalloc` returned `p`. -/
def KEvent.allocates (p : Nat) : KEvent → Bool
  | .kalloc r => r == p
  | _ => false

/-- A `kref_inc` on the page of `p`. -/
def KEvent.incs (p : Nat) : KEvent → Bool
  | .krefInc pa => getRefIndex pa == getRefIndex p
  | _ => false

/-- A `kfree` of the page of `p`. -/
def KEvent.frees (p : Nat) : KEvent → Bool
  | .kfree pa => getRefIndex pa == getRefIndex p
  | _ => false

/-- `1 + (number of kref_inc) - (number of kfree)` on the page `p` since `kalloc` last
returned it. -/
def ownerBalance (p : Nat) (evs : List KEvent) : Int :=
  let h := Trace.sinceLast (KEvent.allocates p) evs
  1 + (h.countP (KEvent.incs p) : Int) - (h.countP (KEvent.frees p) : Int)

end Xv6
