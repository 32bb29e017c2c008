import Mathlib

/-!
# Pipes (`kernel/pipe.c`)

A pipe is a ring of `PIPESIZE` bytes indexed by two free-running `uint` counters, `nread` and
`nwrite`, both taken modulo `PIPESIZE` when they index the ring. The counters are `UInt32`
here, so that the full test `nwrite == nread + PIPESIZE` and the increments wrap as in C.

Every function below is one hold of `pi->lock`: `pipewrite` returns, or sleeps when the ring is
full and resumes later in a new hold with the bytes it has written so far; `piperead` sleeps
while the ring is empty and the write end open, then copies in one hold. The kill flag is read
under the process's own lock, so another CPU may set it between two reads in one hold: each
read is an argument. `copyin` and `copyout` are given by the bytes (or the addresses) they
succeed on.

The clients are the file layer and the system calls: a section of `pipewrite` runs only while
the write end is open (the writer holds the write file), one of `piperead` only while the read
end is open, and `pipeclose` runs once for each end, from `fileclose` of its last reference.
-/

namespace Xv6

/-- `PIPESIZE`. -/
def PIPESIZE : Nat := 512

/-- `struct pipe`, without its lock. -/
structure Pipe where
  /-- `data[PIPESIZE]`, by index. -/
  data : Nat → UInt8
  /-- `nread`: number of bytes read. -/
  nread : UInt32
  /-- `nwrite`: number of bytes written. -/
  nwrite : UInt32
  /-- `readopen`: the read end is still open. -/
  readopen : Bool
  /-- `writeopen`: the write end is still open. -/
  writeopen : Bool

/-- The pipe `pipealloc` sets up in the page `kalloc` returned, whose bytes are `junk`. -/
def pipealloc (junk : Nat → UInt8) : Pipe :=
  { data := junk, nread := 0, nwrite := 0, readopen := true, writeopen := true }

/-- `pipeclose(pi, writable)`: the pipe, and whether it called `kfree` on the pipe's page. -/
def pipeclose (pi : Pipe) (writable : Bool) : Pipe × Bool :=
  let pi := if writable then { pi with writeopen := false } else { pi with readopen := false }
  (pi, !pi.readopen && !pi.writeopen)

/-- How one hold of the lock in `pipewrite` ends. -/
inductive WriteStop where
  /-- The ring is full: sleep on `nwrite` with `i` bytes written so far. -/
  | sleeps (i : Nat)
  /-- Return `r` to the caller. -/
  | returns (r : Int)
  deriving DecidableEq, Repr

/-- The loop of `pipewrite(pi, addr, n)` from byte `i` on, within one hold of the lock:
the pipe, how the hold ends, and the bytes it stored. `killed i` is what `killed(pr)` reads
before byte `i`; `umem a` is the byte `copyin` fetches from user address `a`, `none` when it
fails. `fuel` is the number of bytes left. -/
def pipewriteLoop (killed : Nat → Bool) (umem : Nat → Option UInt8) (addr : Nat) (n : Int) :
    Nat → Nat → Pipe → Pipe × WriteStop × List UInt8
  | 0, i, pi => (pi, .returns i, [])
  | fuel + 1, i, pi =>
    if (i : Int) < n then
      if !pi.readopen || killed i then (pi, .returns (-1), [])
      else if pi.nwrite == pi.nread + UInt32.ofNat PIPESIZE then (pi, .sleeps i, [])
      else
        match umem (addr + i) with
        -- `copyin` failed: stop with what was written
        | none => (pi, .returns i, [])
        | some ch =>
          let pi := { pi with
                      data := Function.update pi.data (pi.nwrite % UInt32.ofNat PIPESIZE).toNat ch
                      nwrite := pi.nwrite + 1 }
          let res := pipewriteLoop killed umem addr n fuel (i + 1) pi
          (res.1, res.2.1, ch :: res.2.2)
    else (pi, .returns i, [])

/-- One hold of the lock in `pipewrite(pi, addr, n)`, entered with `i` bytes written. -/
def pipewrite (pi : Pipe) (killed : Nat → Bool) (umem : Nat → Option UInt8) (addr : Nat)
    (n : Int) (i : Nat) : Pipe × WriteStop × List UInt8 :=
  pipewriteLoop killed umem addr n (n.toNat - i) i pi

/-- The copy loop of `piperead(pi, addr, n)` from byte `i` on: the pipe, the value returned and
the bytes copied out. `uok a` says whether `copyout` to user address `a` succeeds. -/
def pipereadLoop (uok : Nat → Bool) (addr : Nat) (n : Int) :
    Nat → Nat → Pipe → Pipe × Int × List UInt8
  | 0, i, pi => (pi, i, [])
  | fuel + 1, i, pi =>
    if (i : Int) < n then
      if pi.nread == pi.nwrite then (pi, i, [])
      else
        let ch := pi.data (pi.nread % UInt32.ofNat PIPESIZE).toNat
        if !uok (addr + i) then (pi, if i = 0 then -1 else i, [])
        else
          let res := pipereadLoop uok addr n fuel (i + 1) { pi with nread := pi.nread + 1 }
          (res.1, res.2.1, ch :: res.2.2)
    else (pi, i, [])

/-- One hold of the lock in `piperead(pi, addr, n)`: `none` when it goes to sleep on an empty
pipe whose write end is open; otherwise the pipe, the value returned and the bytes copied out. -/
def piperead (pi : Pipe) (killed : Bool) (uok : Nat → Bool) (addr : Nat) (n : Int) :
    Option (Pipe × Int × List UInt8) :=
  if pi.nread == pi.nwrite && pi.writeopen then
    if killed then some (pi, -1, []) else none
  else some (pipereadLoop uok addr n n.toNat 0 pi)

/-! ## Readers, writers and the file layer -/

/-- The pipe with what has gone through it (ghost state): every byte `pipewrite` stored, in
order; every byte `piperead` copied out, in order; and the `kfree` calls on its page. -/
structure PipeSys where
  pipe : Pipe
  written : List UInt8
  readOut : List UInt8
  frees : Nat

/-- Just after `pipealloc`. -/
def PipeSys.init (junk : Nat → UInt8) : PipeSys :=
  { pipe := pipealloc junk, written := [], readOut := [], frees := 0 }

/-- One hold of the pipe's lock, by any process. -/
inductive PipeEvent where
  | write (killed : Nat → Bool) (umem : Nat → Option UInt8) (addr : Nat) (n : Int) (i : Nat)
  | read (killed : Bool) (uok : Nat → Bool) (addr : Nat) (n : Int)
  | close (writable : Bool)

/-- One hold of the lock that the file layer allows. -/
inductive PipeStep : PipeSys → PipeEvent → PipeSys → Prop where
  | write {s : PipeSys} {killed umem addr n i p stop out} :
      s.pipe.writeopen = true → pipewrite s.pipe killed umem addr n i = (p, stop, out) →
      PipeStep s (.write killed umem addr n i) { s with pipe := p, written := s.written ++ out }
  | read {s : PipeSys} {killed uok addr n p r out} :
      s.pipe.readopen = true → piperead s.pipe killed uok addr n = some (p, r, out) →
      PipeStep s (.read killed uok addr n) { s with pipe := p, readOut := s.readOut ++ out }
  | close {s : PipeSys} {writable : Bool} {p : Pipe} {freed : Bool} :
      (if writable then s.pipe.writeopen else s.pipe.readopen) = true →
      pipeclose s.pipe writable = (p, freed) →
      PipeStep s (.close writable) { s with pipe := p, frees := s.frees + if freed then 1 else 0 }

end Xv6
