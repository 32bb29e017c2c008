import Xv6.Param
import Xv6.Lib.DList

/-!
# The buffer cache (`kernel/bio.c`)

`bcache`: `NBUF` buffers on one circular doubly linked list through `bcache.head`, most
recently released first. `bget` looks for a cached copy of the block walking forward from the
head, and otherwise recycles the first buffer with no references walking backward from it.
`brelse` moves a buffer to the front when its last reference goes; `bpin` and `bunpin`, which
the log uses, only count. Each call holds `bcache.lock` throughout, so each is one step.

A buffer keeps its identity, `valid` and `refcnt`; its data, its sleep lock and the disk are
left out, as no function here reads them. `refcnt` is a `uint`; a decrement at zero would wrap,
which the callers' discipline rules out.
-/

namespace Xv6

/-- A node of the list: `bcache.head` or a buffer. -/
inductive BNode where
  | head
  | buf (i : Fin NBUF)
  deriving DecidableEq, Repr

/-- The fields of `struct buf` that the cache reads. -/
structure Buf where
  dev : Nat
  blockno : Nat
  valid : Bool
  refcnt : Nat
  deriving DecidableEq, Repr

/-- `bcache`: the buffers, and the `next` and `prev` fields of every node. -/
structure BCache where
  buf : Fin NBUF → Buf
  next : BNode → BNode
  prev : BNode → BNode

/-- The write of buffer `i`'s fields. -/
def BCache.setBuf (c : BCache) (i : Fin NBUF) (b : Buf) : BCache :=
  { c with buf := Function.update c.buf i b }

/-- A test of a buffer's fields, false at the head. -/
def BCache.test (c : BCache) (p : Buf → Bool) : BNode → Bool
  | .head => false
  | .buf i => p (c.buf i)

/-- `x->next->prev = x->prev; x->prev->next = x->next`. -/
def BCache.unlink (c : BCache) (x : BNode) : BCache :=
  { c with next := (DList.unlink c.next c.prev x).1, prev := (DList.unlink c.next c.prev x).2 }

/-- `x->next = bcache.head.next; x->prev = &bcache.head; bcache.head.next->prev = x;
bcache.head.next = x`. -/
def BCache.pushFront (c : BCache) (x : BNode) : BCache :=
  { c with
    next := (DList.pushFront c.next c.prev .head x).1
    prev := (DList.pushFront c.next c.prev .head x).2 }

/-- The static `bcache` before `binit`: zero buffers, null links. -/
def BCache.zero : BCache := ⟨fun _ => ⟨0, 0, false, 0⟩, fun _ => .head, fun _ => .head⟩

/-- `binit()`: the head linked to itself, then each buffer in turn put at the front. -/
def binit : BCache :=
  (List.finRange NBUF).foldl (fun c i => c.pushFront (.buf i))
    { BCache.zero with next := fun _ => .head, prev := fun _ => .head }

/-- `bget(dev, blockno)`: the buffer of the block with one more reference, a recycled one, or
the panic. Each loop goes round the list once. -/
def bget (dev blockno : Nat) (c : BCache) : Except String (Fin NBUF × BCache) :=
  -- Is the block already cached?
  match DList.walk c.next .head (c.test fun b => b.dev == dev && b.blockno == blockno) (NBUF + 1)
      (c.next .head) with
  | some (.buf i) => .ok (i, c.setBuf i { c.buf i with refcnt := (c.buf i).refcnt + 1 })
  | _ =>
    -- Not cached: recycle the least recently used unused buffer.
    match DList.walk c.prev .head (c.test fun b => b.refcnt == 0) (NBUF + 1) (c.prev .head) with
    | some (.buf i) => .ok (i, c.setBuf i ⟨dev, blockno, false, 1⟩)
    | _ => .error "bget: no buffers"

/-- `bread(dev, blockno)`: `bget`, and the disk read that makes an invalid buffer valid. -/
def bread (dev blockno : Nat) (c : BCache) : Except String (Fin NBUF × BCache) := do
  let (i, c) ← bget dev blockno c
  if !(c.buf i).valid then
    return (i, c.setBuf i { c.buf i with valid := true })
  return (i, c)

/-- `brelse(b)`: drop a reference; the last one moves the buffer to the front. -/
def brelse (i : Fin NBUF) (c : BCache) : BCache :=
  let c := c.setBuf i { c.buf i with refcnt := (c.buf i).refcnt - 1 }
  -- no one is waiting for it: to the front
  if (c.buf i).refcnt = 0 then (c.unlink (.buf i)).pushFront (.buf i) else c

/-- `bpin(b)`. -/
def bpin (i : Fin NBUF) (c : BCache) : BCache :=
  c.setBuf i { c.buf i with refcnt := (c.buf i).refcnt + 1 }

/-- `bunpin(b)`. -/
def bunpin (i : Fin NBUF) (c : BCache) : BCache :=
  c.setBuf i { c.buf i with refcnt := (c.buf i).refcnt - 1 }

/-! ## The cache with its callers -/

/-- The cache, and what its callers hold: for each buffer the `bread` calls not yet released,
the pins not yet unpinned, and when its reference count last fell to zero (`binit` counts as
a release of the buffers in the order it links them); `clock` counts those releases. The last
three are histories that no function of the cache reads. -/
structure BSys where
  cache : BCache
  gets : Fin NBUF → Nat
  pins : Fin NBUF → Nat
  stamp : Fin NBUF → Nat
  clock : Nat

/-- The cache after `binit`. -/
def BSys.init : BSys := ⟨binit, fun _ => 0, fun _ => 0, fun i => i.val, NBUF⟩

/-- A call into the cache. -/
inductive BEvent where
  | bread (dev blockno : Nat)
  | brelse (i : Fin NBUF)
  | bpin (i : Fin NBUF)
  | bunpin (i : Fin NBUF)
  deriving DecidableEq, Repr

/-- Record a release at `i` when its count has fallen to zero. -/
def BSys.released (s : BSys) (i : Fin NBUF) : BSys :=
  if (s.cache.buf i).refcnt = 0 then
    { s with stamp := Function.update s.stamp i s.clock, clock := s.clock + 1 }
  else s

/-- One call, by a caller that keeps the discipline: `brelse` only of a buffer it got from
`bread`, `bunpin` only of a pinned buffer, and, when `held` is set, only of one it also holds.
`none` when the discipline forbids the call or the call panics. -/
def BSys.step (held : Bool) (s : BSys) : BEvent → Option BSys
  | .bread dev blockno =>
    match bread dev blockno s.cache with
    | .ok (i, c) => some { s with cache := c, gets := Function.update s.gets i (s.gets i + 1) }
    | .error _ => none
  | .brelse i =>
    if s.gets i = 0 then none
    else
      let s' : BSys :=
        { s with
          cache := brelse i s.cache
          gets := Function.update s.gets i (s.gets i - 1) }
      some (s'.released i)
  | .bpin i => some { s with cache := bpin i s.cache, pins := Function.update s.pins i (s.pins i + 1) }
  | .bunpin i =>
    if s.pins i = 0 ∨ (held ∧ s.gets i = 0) then none
    else
      let s' : BSys :=
        { s with
          cache := bunpin i s.cache
          pins := Function.update s.pins i (s.pins i - 1) }
      some (s'.released i)

end Xv6
