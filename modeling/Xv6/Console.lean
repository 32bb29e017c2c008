import Mathlib
import Xv6.Param
import Xv6.Lib.Ring

/-!
# Console input (`kernel/console.c`)

The input ring `cons`, its interrupt handler `consoleintr` and `consoleread`. The ring has
`INPUT_BUF_SIZE` slots and three free-running `uint` indices: characters in `[r, w)` are
committed to readers, those in `[w, e)` form the line being edited. Each critical section under
`cons.lock` is one step: `consoleintr` whole, and `consoleread` from taking the lock (or waking
up) to releasing it or going to sleep on `&cons.r`.

A process inside `consoleread` keeps `target`, `n` and `dst` across its sleeps. What
`either_copyout` does is given by whether it succeeds at each user address, and whether the
process has been killed by `killed(myproc())` in that section. The echo to the UART and
`procdump` (control-P) write no state of the ring and are left out.
-/

namespace Xv6

/-- `INPUT_BUF_SIZE`. -/
def INPUT_BUF_SIZE : Nat := 128

instance : NeZero INPUT_BUF_SIZE := ⟨by decide⟩

/-- A character as the byte the ring holds. -/
def chr (x : Char) : UInt8 := x.toNat.toUInt8

/-- `C(x)`: control-`x`. -/
def C (x : Char) : UInt8 := chr x - chr '@'

/-- `cons`: the input ring and its read, write and edit indices. -/
structure Cons where
  buf : Fin INPUT_BUF_SIZE → UInt8
  r : UInt32
  w : UInt32
  e : UInt32

/-- The static `cons` at boot. -/
def Cons.zero : Cons := ⟨fun _ => 0, 0, 0, 0⟩

/-- The slot of index `i`: `cons.buf[i % INPUT_BUF_SIZE]`. -/
def Cons.at (s : Cons) (i : UInt32) : UInt8 := s.buf (Ring.slot INPUT_BUF_SIZE i)

/-- The loop of control-U with `k` rounds left: erase back to the last newline, never past
`w`. Each round moves `e` one step towards `w`, so `e - w` rounds are enough. -/
def killLine : Nat → Cons → Cons
  | 0, s => s
  | k + 1, s =>
    if s.e ≠ s.w ∧ s.at (s.e - 1) ≠ chr '\n' then killLine k { s with e := s.e - 1 } else s

/-- `consoleintr(c)` for an input character `c`. -/
def consoleintr (c : UInt8) (s : Cons) : Cons :=
  if c = C 'P' then s
  else if c = C 'U' then killLine (Ring.dist s.e s.w) s
  else if c = C 'H' ∨ c = 0x7f then
    if s.e ≠ s.w then { s with e := s.e - 1 } else s
  else if c ≠ 0 ∧ Ring.dist s.e s.r < INPUT_BUF_SIZE then
    let c := if c = chr '\r' then chr '\n' else c
    let s := { s with buf := Function.update s.buf (Ring.slot INPUT_BUF_SIZE s.e) c, e := s.e + 1 }
    -- a whole line, an end of file or a full ring is committed to readers
    if c = chr '\n' ∨ c = C 'D' ∨ Ring.dist s.e s.r = INPUT_BUF_SIZE then { s with w := s.e }
    else s
  else s

/-- A process inside `consoleread(user_dst, dst, n)`: `target` (the `n` it was called with),
the bytes still wanted, and the user address of the next byte. `target` is a `uint`; it is
compared with `n` only while `n > 0`, where the two readings agree. -/
structure Reader where
  target : Int
  n : Int
  dst : Nat

/-- How a critical section of `consoleread` ends: it returns, or it sleeps on `&cons.r`. -/
inductive ReadEnd where
  | ret (v : Int)
  | sleep
  deriving DecidableEq, Repr

/-- What a critical section of `consoleread` leaves: the ring, the reader, the bytes it
copied out, in order, and how it ended. -/
structure ReadRun where
  cons : Cons
  reader : Reader
  out : List UInt8
  ending : ReadEnd

/-- The loop of `consoleread` from taking the lock (or waking up) to releasing it or going to
sleep. -/
def consolereadLoop (killed : Bool) (copyOk : Nat → Bool) (s : Cons) (rd : Reader) : ReadRun :=
  if rd.n ≤ 0 then ⟨s, rd, [], .ret (rd.target - rd.n)⟩
  else if hrw : s.r = s.w then
    if killed then ⟨s, rd, [], .ret (-1)⟩ else ⟨s, rd, [], .sleep⟩
  else
    let c := s.at s.r
    let s' := { s with r := s.r + 1 }
    if c = C 'D' then
      -- a control-D after some bytes is left for the next read
      if rd.n < rd.target then ⟨{ s' with r := s'.r - 1 }, rd, [], .ret (rd.target - rd.n)⟩
      else ⟨s', rd, [], .ret (rd.target - rd.n)⟩
    else if !copyOk rd.dst then ⟨s', rd, [], .ret (rd.target - rd.n)⟩
    else
      let rd' := { rd with dst := rd.dst + 1, n := rd.n - 1 }
      if c = chr '\n' then ⟨s', rd', [c], .ret (rd'.target - rd'.n)⟩
      else
        let run := consolereadLoop killed copyOk s' rd'
        { run with out := c :: run.out }
termination_by Ring.dist s.w s.r
decreasing_by
  have := Ring.dist_add_one_right (Ne.symm hrw)
  omega

/-- `consoleread(user_dst, dst, n)`, its first critical section. -/
def consoleread (killed : Bool) (copyOk : Nat → Bool) (dst : Nat) (n : Int) (s : Cons) :
    ReadRun :=
  consolereadLoop killed copyOk s ⟨n, n, dst⟩

/-! ## The console with its readers -/

/-- The console, the processes inside `consoleread` (asleep on `&cons.r`), and two histories
that no function reads: the characters committed to readers, in order, and the bytes
`consoleread` copied out, in order. -/
structure ConsSys where
  cons : Cons
  readers : Fin NPROC → Option Reader
  committed : List UInt8
  delivered : List UInt8

/-- The console at boot. -/
def ConsSys.zero : ConsSys := ⟨Cons.zero, fun _ => none, [], []⟩

/-- An event of the console. -/
inductive ConsEvent where
  /-- An input character: `uartintr` calls `consoleintr(c)`. -/
  | intr (c : UInt8)
  /-- Process `p` calls `consoleread(1, dst, n)`. -/
  | read (p : Fin NPROC) (dst : Nat) (n : Int) (killed : Bool) (copyOk : Nat → Bool)
  /-- Process `p`, asleep in `consoleread`, runs again after a wakeup. -/
  | resume (p : Fin NPROC) (killed : Bool) (copyOk : Nat → Bool)

/-- The reader `p` after a critical section of `consoleread`. -/
def ConsSys.afterRead (s : ConsSys) (p : Fin NPROC) (run : ReadRun) : ConsSys :=
  { s with
    cons := run.cons
    readers := Function.update s.readers p (if run.ending = .sleep then some run.reader else none)
    delivered := s.delivered ++ run.out }

/-- The effect of each event; `none` when `read` names a process already inside
`consoleread`, or `resume` one that is not. -/
def ConsSys.step (s : ConsSys) : ConsEvent → Option ConsSys
  | .intr c =>
    let cons := consoleintr c s.cons
    some { s with
      cons := cons
      committed := s.committed ++ Ring.read cons.buf s.cons.w (Ring.dist cons.w s.cons.w) }
  | .read p dst n killed copyOk =>
    match s.readers p with
    | some _ => none
    | none => some (s.afterRead p (consoleread killed copyOk dst n s.cons))
  | .resume p killed copyOk =>
    match s.readers p with
    | none => none
    | some rd => some (s.afterRead p (consolereadLoop killed copyOk s.cons rd))

end Xv6
