import Xv6.Param
import Xv6.Lib.Writes
import Xv6.Lib.Run

/-!
# The write-ahead log (`kernel/log.c`)

Two halves. The first is what the log does to the disk: the disk is a map from block numbers
to contents that only `bwrite` changes, and `write_log`, `write_head`, `install_trans`,
`commit` and `recover_from_log` are lists of writes in the sense of `Writes`, each computing
what it writes from the disk (and the buffer cache) as it finds them. A crash between two
`bwrite` calls is then `Writes.crashAt`.

A block's data is seen as the array of 32-bit words `struct logheader` overlays on it: the
header block holds `n` in word `0` and `block[i]` in word `i + 1`. Data blocks are copied
whole and never read, so the view loses nothing.

The second half is the in-memory `struct log` that `begin_op`, `log_write` and `end_op`
share under `log.lock`, with the buffer pins `log_write` and `install_trans` take and drop.
The clients of the second half are file-system operations that bracket their `log_write`
calls with `begin_op()` and `end_op()` and write at most `MAXOPBLOCKS` distinct blocks each.
Each call is one atomic step under `log.lock`; `end_op`'s `commit()` runs without the lock, as
its own step, while `log.committing` keeps every other caller out.

The disk addresses of the log are `log.start` (the header) and the `LOGBLOCKS` blocks after
it; `initlog` takes them from the superblock.
-/

namespace Xv6

/-- A disk block's data, as 32-bit words. -/
abbrev Block := Nat → Int

/-- The disk: the data of every block, by block number. -/
abbrev Disk := Nat → Block

open Writes

/-! ## On the disk -/

/-- `read_head()`: the in-memory header read from the header block at `start`, its `n`
entries in order. -/
def readHead (start : Nat) (d : Disk) : List Nat :=
  (List.range (d start 0).toNat).map fun i => (d start (i + 1)).toNat

/-- The header block's data after `write_head()` stored the header `lh` into the buffer that
held `b`: `n` and `block[0..n)` change, the rest of the block does not. -/
def putHead (b : Block) (lh : List Nat) : Block := fun w =>
  if w = 0 then (lh.length : Int)
  else if w ≤ lh.length then ((lh.getD (w - 1) 0 : Nat) : Int)
  else b w

/-- `write_head()` with the in-memory header `lh`: one `bwrite` of the header block. -/
def writeHead (start : Nat) (lh : List Nat) : Cmd Nat Block :=
  fun d => (start, putHead (d start) lh)

/-- The loop of `write_log()` from `tail` on: log block `start + tail + 1` gets the contents
the buffer cache holds for `block[tail]`. -/
def writeLogLoop (start : Nat) (cache : Nat → Block) (tail : Nat) :
    List Nat → List (Cmd Nat Block)
  | [] => []
  | b :: rest => (fun _ => (start + tail + 1, cache b)) :: writeLogLoop start cache (tail + 1) rest

/-- `write_log()`. -/
def writeLog (start : Nat) (cache : Nat → Block) (lh : List Nat) : List (Cmd Nat Block) :=
  writeLogLoop start cache 0 lh

/-- The loop of `install_trans()` from `tail` on: the home block `block[tail]` gets the
contents of log block `start + tail + 1`, read when the copy runs. -/
def installTransLoop (start : Nat) (tail : Nat) : List Nat → List (Cmd Nat Block)
  | [] => []
  | b :: rest => (fun d => (b, d (start + tail + 1))) :: installTransLoop start (tail + 1) rest

/-- `install_trans()`: the same writes whether recovering or not (recovery only prints, and
commit only unpins the buffers). -/
def installTrans (start : Nat) (lh : List Nat) : List (Cmd Nat Block) :=
  installTransLoop start 0 lh

/-- The writes of `commit()` for the in-memory header `lh`, whose blocks hold `cache` in the
buffer cache: the log, the header (the commit point), the home blocks, the cleared header. -/
def commit (start : Nat) (cache : Nat → Block) (lh : List Nat) : List (Cmd Nat Block) :=
  if 0 < lh.length then
    writeLog start cache lh ++ [writeHead start lh] ++ installTrans start lh ++ [writeHead start []]
  else []

/-- The writes of `recover_from_log()` on the disk `d`: `read_head`, `install_trans(1)`, then
`log.lh.n = 0; write_head()`. -/
def recoverFromLog (start : Nat) (d : Disk) : List (Cmd Nat Block) :=
  installTrans start (readHead start d) ++ [writeHead start []]

/-- A run of `recover_from_log()` on `d` cut short by a crash after some of its writes (all of
them, or none, included). -/
def RecoverCrash (start : Nat) (d d' : Disk) : Prop :=
  ∃ k, d' = crashAt (recoverFromLog start d) k d

/-- The blocks outside the log: neither the header at `start` nor one of the `LOGBLOCKS` log
blocks after it (`mkfs` gives the log `LOGBLOCKS + 1` blocks). -/
def NonLog (start x : Nat) : Prop := x < start ∨ start + LOGBLOCKS < x

instance (start x : Nat) : Decidable (NonLog start x) :=
  inferInstanceAs (Decidable (x < start ∨ start + LOGBLOCKS < x))

/-! ## In memory -/

/-- The in-memory `struct log` (`start` and `dev` are fixed after `initlog` and left out),
with the pins the log holds on cached buffers, by block number. -/
structure Log where
  /-- `log.outstanding`: how many FS system calls are executing. -/
  outstanding : Int
  /-- `log.committing`. -/
  committing : Bool
  /-- `log.lh`: the blocks of the current transaction, `block[0..n)`. -/
  lh : List Nat
  /-- The part of each buffer's `refcnt` added by `bpin` and not yet dropped by `bunpin`. -/
  pins : Nat → Int

/-- The log after `initlog`: `recover_from_log` left `n = 0`; nothing is pinned. -/
def Log.init : Log := { outstanding := 0, committing := false, lh := [], pins := fun _ => 0 }

/-- `begin_op()`; `none` when it sleeps (a commit is running, or this operation might
exhaust the log), to try again when woken. -/
def beginOp (s : Log) : Option Log :=
  if s.committing then none
  else if (LOGBLOCKS : Int) < s.lh.length + (s.outstanding + 1) * MAXOPBLOCKS then none
  else some { s with outstanding := s.outstanding + 1 }

/-- `log_write(b)` for a buffer of block `b`. The size check comes before the search for an
entry to absorb into. -/
def logWrite (s : Log) (b : Nat) : Except String Log :=
  if LOGBLOCKS ≤ s.lh.length then .error "too big a transaction"
  else if s.outstanding < 1 then .error "log_write outside of trans"
  else
    let i := s.lh.idxOf b
    if i = s.lh.length then
      -- a new entry: `bpin(b); log.lh.n++`
      .ok { s with lh := s.lh ++ [b], pins := Function.update s.pins b (s.pins b + 1) }
    else .ok { s with lh := s.lh.set i b }

/-- `end_op()` up to the release of `log.lock`: the new state and `do_commit`. -/
def endOp (s : Log) : Except String (Log × Bool) :=
  let s := { s with outstanding := s.outstanding - 1 }
  if s.committing then .error "log.committing"
  else if s.outstanding = 0 then .ok ({ s with committing := true }, true)
  else .ok (s, false)

/-- The `bunpin` calls of `install_trans(0)`, one per entry. -/
def unpinAll (pins : Nat → Int) : List Nat → Nat → Int
  | [] => pins
  | b :: rest => unpinAll (Function.update pins b (pins b - 1)) rest

/-- What `commit()` does in memory (its disk writes are `commit` above), followed by the end
of `end_op`: `log.committing = 0`. -/
def commitDone (s : Log) : Log :=
  let s := if 0 < s.lh.length then { s with lh := [], pins := unpinAll s.pins s.lh } else s
  { s with committing := false }

/-! ## The log's clients -/

/-- A call on the log by the file-system operation `o`, or the `commit()` run by the `end_op`
that found no other operation outstanding. -/
inductive LogEvent where
  | beginOp (o : Nat)
  | logWrite (o : Nat) (b : Nat)
  | endOp (o : Nat)
  | commit
  deriving DecidableEq, Repr

/-- The log with the operations under way, each with the distinct blocks it has passed to
`log_write` so far (ghost state: the kernel keeps no such list). -/
structure LogSys where
  log : Log
  active : List (Nat × List Nat)

/-- After `initlog`, before any operation. -/
def LogSys.init : LogSys := { log := Log.init, active := [] }

/-- The calls the clients' contract allows: a new operation begins (or retries after
sleeping); an operation under way writes a block it has written, or a new one while it has
written fewer than `MAXOPBLOCKS`; an operation under way ends; the pending commit runs. -/
def LogSys.allowed (s : LogSys) : LogEvent → Bool
  | .beginOp o => (s.active.lookup o).isNone
  | .logWrite o b =>
    match s.active.lookup o with
    | some w => b ∈ w || decide (w.length < MAXOPBLOCKS)
    | none => false
  | .endOp o => (s.active.lookup o).isSome
  | .commit => s.log.committing

/-- What the kernel does on a call; an error is the panic it reaches. -/
def LogSys.step (s : LogSys) : LogEvent → Except String LogSys
  | .beginOp o =>
    match beginOp s.log with
    | some l => .ok { log := l, active := s.active ++ [(o, [])] }
    | none => .ok s
  | .logWrite o b => do
    let l ← logWrite s.log b
    pure { log := l, active := s.active.map fun p => if p.1 = o then (p.1, p.2.insert b) else p }
  | .endOp o => do
    let (l, _) ← endOp s.log
    pure { log := l, active := s.active.filter fun p => p.1 ≠ o }
  | .commit => .ok { s with log := commitDone s.log }

/-- An allowed call that returns. -/
def LogSys.next (s : LogSys) (e : LogEvent) : Option LogSys :=
  if s.allowed e then (s.step e).toOption else none

/-- One step of the log under its contract. -/
def LStep (s : LogSys) (e : LogEvent) (t : LogSys) : Prop := s.next e = some t

end Xv6
