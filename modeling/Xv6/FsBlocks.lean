import Mathlib
import Xv6.Fs

/-!
# Blocks of the file system and the blocks a transaction logs

The block layer of `kernel/fs.c` (`bzero`, `balloc`, `bmap`, `readi`, `iupdate`, `writei`) and the loop
of `filewrite` in `kernel/file.c`, with every call of `log_write` recorded: what the log has to
hold for the transaction. A block's contents matter here only where the code reads them back:
the free bitmap, and the addresses an indirect block holds. The superblock is the one `mkfs`
writes; the bitmap bit of block `b` lives in block `BBLOCK(b)`.

The in-memory inode is the record `writei` works on: its `size` and `addrs` (`NDIRECT` direct
addresses and, at index `NDIRECT`, the indirect block). `either_copyin` is given by whether it
succeeds for the chunk that starts at each byte of the user buffer.
-/

namespace Xv6

namespace Blocks

/-- `struct superblock`, the fields the block layer reads. -/
structure Superblock where
  size : Nat
  ninodes : Nat
  inodestart : Nat
  bmapstart : Nat

/-- The superblock `mkfs` writes: log after the superblock, then inode blocks, then the
bitmap. -/
def sbMkfs : Superblock :=
  { size := FSSIZE, ninodes := NINODES, inodestart := 2 + (LOGBLOCKS + 1),
    bmapstart := 2 + (LOGBLOCKS + 1) + (NINODES / IPB + 1) }

/-- `IBLOCK(i, sb)`: the block holding inode `i`. -/
def IBLOCK (sb : Superblock) (i : Nat) : Nat := i / IPB + sb.inodestart

/-- `BBLOCK(b, sb)`: the bitmap block holding the bit of block `b`. -/
def BBLOCK (sb : Superblock) (b : Nat) : Nat := b / BPB + sb.bmapstart

/-- The blocks as the block layer sees them, and what the running transaction has logged. -/
structure BState where
  /-- The bit of each block in the free bitmap. -/
  bitmap : Nat → Bool
  /-- `ip->addrs[k]` of each inode. -/
  addrs : Nat → Nat → Nat
  /-- `ip->size` of each inode. -/
  size : Nat → Nat
  /-- The addresses an indirect block holds. -/
  ind : Nat → Nat → Nat
  /-- Blocks passed to `log_write` since `begin_op`, in order. -/
  logged : List Nat

/-- `log_write(bp)` of block `b`. -/
def BState.logWrite (s : BState) (b : Nat) : BState := { s with logged := s.logged ++ [b] }

/-- `bzero(dev, bno)`. -/
def bzero (b : Nat) (s : BState) : BState :=
  ({ s with ind := Function.update s.ind b fun _ => 0 }).logWrite b

/-- `balloc(dev)`: the first block whose bit is clear, marked in use and zeroed; `0` when there
is none. Scanning the bitmap block by block, from bit `0` on, is scanning the blocks in order. -/
def balloc (sb : Superblock) (s : BState) : Nat × BState :=
  match (List.range sb.size).find? (fun b => !s.bitmap b) with
  | none => (0, s)
  | some b => (b, bzero b ({ s with bitmap := Function.update s.bitmap b true }.logWrite (BBLOCK sb b)))

/-- Set `ip->addrs[k]`. -/
def BState.setAddr (s : BState) (ip k a : Nat) : BState :=
  { s with addrs := Function.update s.addrs ip (Function.update (s.addrs ip) k a) }

/-- The start of `bmap` past `NDIRECT`: the indirect block `ip->addrs[NDIRECT]`, allocated
when it is `0`; `0` when out of blocks. -/
def indirectBlock (sb : Superblock) (ip : Nat) (s : BState) : Nat × BState :=
  if s.addrs ip NDIRECT = 0 then
    let r := balloc sb s
    if r.1 = 0 then r else (r.1, r.2.setAddr ip NDIRECT r.1)
  else (s.addrs ip NDIRECT, s)

/-- `bmap(ip, bn)`: the address of block `bn` of `ip`, allocating it (and the indirect block)
when missing; `0` when out of blocks. `writei` never passes `bn ≥ MAXFILE`, where `bmap`
panics. -/
def bmap (sb : Superblock) (ip bn : Nat) (s : BState) : Nat × BState :=
  if bn < NDIRECT then
    if s.addrs ip bn = 0 then
      let r := balloc sb s
      if r.1 = 0 then (0, r.2) else (r.1, r.2.setAddr ip bn r.1)
    else (s.addrs ip bn, s)
  else
    let r := indirectBlock sb ip s
    if r.1 = 0 then (0, r.2)
    else
      let a := r.1
      let s := r.2
      if s.ind a (bn - NDIRECT) = 0 then
        let r := balloc sb s
        if r.1 = 0 then (0, r.2)
        else
          let entries := Function.update (r.2.ind a) (bn - NDIRECT) r.1
          (r.1, ({ r.2 with ind := Function.update r.2.ind a entries }).logWrite a)
      else (s.ind a (bn - NDIRECT), s)

/-- The loop of `readi(ip, user_dst, dst, off, n)` after `tot` bytes, at offset `off`: the
value returned and the state. `cok tot` says whether `either_copyout` of the chunk at byte `tot`
succeeds; `tot = -1` when one fails. -/
def readiLoop (sb : Superblock) (ip : Nat) (cok : Nat → Bool) (n : Nat) :
    Nat → Nat → Nat → BState → Int × BState
  | 0, tot, _, s => (tot, s)
  | fuel + 1, tot, off, s =>
    if tot < n then
      let r := bmap sb ip (off / BSIZE) s
      if r.1 = 0 then (tot, r.2)
      else
        let m := min (n - tot) (BSIZE - off % BSIZE)
        if cok tot = false then (-1, r.2)
        else readiLoop sb ip cok n fuel (tot + m) (off + m) r.2
    else (tot, s)

/-- `readi(ip, user_dst, dst, off, n)` with `off` and `n` as `uint`s: `bmap` is called for
every block read, and the inode is not written back. -/
def readi (sb : Superblock) (ip : Nat) (cok : Nat → Bool) (off n : Nat) (s : BState) :
    Int × BState :=
  if s.size ip < off ∨ 2 ^ 32 ≤ off + n then (0, s)
  else
    let n := if s.size ip < off + n then s.size ip - off else n
    readiLoop sb ip cok n n 0 off s

/-- `iupdate(ip)`: the block holding the dinode is logged. -/
def iupdate (sb : Superblock) (ip : Nat) (s : BState) : BState := s.logWrite (IBLOCK sb ip)

/-- The loop of `writei(ip, 1, src, off, n)` after `tot` bytes, at offset `off`: the bytes
written, the offset reached and the state. `cok tot` says whether `either_copyin` of the chunk
at byte `tot` succeeds. Each round writes at least one byte, so `n` rounds are enough. -/
def writeiLoop (sb : Superblock) (ip : Nat) (cok : Nat → Bool) (n : Nat) :
    Nat → Nat → Nat → BState → Nat × Nat × BState
  | 0, tot, off, s => (tot, off, s)
  | fuel + 1, tot, off, s =>
    if tot < n then
      let r := bmap sb ip (off / BSIZE) s
      if r.1 = 0 then (tot, off, r.2)
      else
        let m := min (n - tot) (BSIZE - off % BSIZE)
        if cok tot = false then (tot, off, r.2)
        else writeiLoop sb ip cok n fuel (tot + m) (off + m) (r.2.logWrite r.1)
    else (tot, off, s)

/-- `writei(ip, 1, src, off, n)` with `off` and `n` as `uint`s: the value returned and the
state. -/
def writei (sb : Superblock) (ip : Nat) (cok : Nat → Bool) (off n : Nat) (s : BState) :
    Int × BState :=
  if s.size ip < off ∨ 2 ^ 32 ≤ off + n then (-1, s)
  else if MAXFILE * BSIZE < off + n then (-1, s)
  else
    let r := writeiLoop sb ip cok n n 0 off s
    let s := if s.size ip < r.2.1 then
        { r.2.2 with size := Function.update r.2.2.size ip r.2.1 } else r.2.2
    -- the inode is written back even when the size did not change
    (r.1, iupdate sb ip s)

/-- The most bytes `filewrite` writes in one transaction:
`((MAXOPBLOCKS-1-1-2) / 2) * BSIZE`. -/
def filewriteMax : Nat := ((MAXOPBLOCKS - 1 - 1 - 2) / 2) * BSIZE

/-- The loop of `filewrite(f, addr, n)` on an inode file `ip` with offset `off`, after `i`
bytes: the blocks each transaction logged, in order, the bytes written and the offset. Each
round is one `begin_op` … `end_op` around `writei` of at most `filewriteMax` bytes; a short
write ends the loop. -/
def filewriteLoop (sb : Superblock) (ip : Nat) (cok : Nat → Bool) (n : Int) :
    Nat → Int → Nat → BState → List (List Nat) × Int × Nat × BState
  | 0, i, off, s => ([], i, off, s)
  | fuel + 1, i, off, s =>
    if i < n then
      let n1 := min (n - i) filewriteMax
      let w := writei sb ip (fun t => cok (i.toNat + t)) off n1.toNat { s with logged := [] }
      let off := if 0 < w.1 then off + w.1.toNat else off
      if w.1 ≠ n1 then ([w.2.logged], i, off, w.2)
      else
        let rest := filewriteLoop sb ip cok n fuel (i + w.1) off w.2
        (w.2.logged :: rest.1, rest.2)
    else ([], i, off, s)

/-- `filewrite(f, addr, n)` on a writable inode file: the transactions' logged blocks and the
value returned. -/
def filewrite (sb : Superblock) (ip : Nat) (cok : Nat → Bool) (off : Nat) (n : Int)
    (s : BState) : List (List Nat) × Int :=
  let r := filewriteLoop sb ip cok n n.toNat 0 off s
  (r.1, if r.2.1 = n then n else -1)

end Blocks

end Xv6
