import Mathlib
import Xv6.FsBlocks

/-!
# The image `mkfs` writes (`mkfs/mkfs.c`)

`main` of `mkfs`: the superblock, `ialloc` of the root and of one inode per input file,
`iappend` of the root's entries and of each file's bytes with the bump allocator `freeblock`,
the fix-up of the root's size, and the bitmap `balloc` writes.

The image is kept by field: each dinode's `type`, `nlink`, `size` and `addrs`, the bytes of
the data blocks, and the entries of indirect blocks. `mkfs` writes every multi-byte field but
the superblock's `magic` through `xint` or `xshort`, which put it in the kernel's little-endian
order on any host; the fields hold the values as the kernel reads them. An `assert` or `die`
that stops `mkfs` is `none`.
-/

namespace Xv6

namespace Mkfs

/-! ## The image -/

/-- `T_DIR` and `T_FILE` of `kernel/stat.h`. -/
def T_DIR : Nat := 1
def T_FILE : Nat := 2

/-- `struct dinode`, the fields `mkfs` writes; `addrs k` for `k ≤ NDIRECT`. -/
structure Dinode where
  type : Nat
  nlink : Nat
  size : Nat
  addrs : Nat → Nat

/-- The image while `mkfs` runs, with its counters `freeinode` and `freeblock`. -/
structure Image where
  dinode : Nat → Dinode
  /-- The bytes of each block. -/
  data : Nat → Nat → Nat
  /-- The `uint` entries of each block read as an indirect block. -/
  ind : Nat → Nat → Nat
  /-- The bits of the free bitmap. -/
  bitmap : Nat → Bool
  freeinode : Nat
  freeblock : Nat

/-- The image after the loop of `wsect(i, zeroes)`: every block zero, `freeinode = 1` and
`freeblock = nmeta`. -/
def Image.start : Image :=
  { dinode := fun _ => ⟨0, 0, 0, fun _ => 0⟩, data := fun _ _ => 0, ind := fun _ _ => 0,
    bitmap := fun _ => false, freeinode := 1, freeblock := nmeta }

/-- `ialloc(type)`: the next inode number, a zeroed dinode with its type and one link. -/
def ialloc (type : Nat) (im : Image) : Nat × Image :=
  (im.freeinode, { im with
    dinode := Function.update im.dinode im.freeinode ⟨type, 1, 0, fun _ => 0⟩
    freeinode := im.freeinode + 1 })

/-- `bcopy` of the bytes `p` into a block from byte `start` on. -/
def copyInto (blk : Nat → Nat) (start : Nat) (p : List Nat) : Nat → Nat :=
  fun j => if start ≤ j ∧ j < start + p.length then p.getD (j - start) 0 else blk j

/-- Block `fbn` of the dinode `din` that `iappend` works on, taking `freeblock` for it (and for
the indirect block past `NDIRECT`) where the address is `0`. -/
def blockFor (fbn : Nat) (din : Dinode) (im : Image) : Nat × Dinode × Image :=
  if fbn < NDIRECT then
    let (din, im) :=
      if din.addrs fbn = 0 then
        ({ din with addrs := Function.update din.addrs fbn im.freeblock },
          { im with freeblock := im.freeblock + 1 })
      else (din, im)
    (din.addrs fbn, din, im)
  else
    let (din, im) :=
      if din.addrs NDIRECT = 0 then
        ({ din with addrs := Function.update din.addrs NDIRECT im.freeblock },
          { im with freeblock := im.freeblock + 1 })
      else (din, im)
    let a := din.addrs NDIRECT
    let im :=
      if im.ind a (fbn - NDIRECT) = 0 then
        { im with
          ind := Function.update im.ind a (Function.update (im.ind a) (fbn - NDIRECT) im.freeblock)
          freeblock := im.freeblock + 1 }
      else im
    (im.ind a (fbn - NDIRECT), din, im)

/-- The loop of `iappend` at offset `off` with the bytes `p` left: the offset reached, the
dinode and the image. Each round copies at least one byte, so `p.length` rounds are enough. -/
def iappendLoop : Nat → Nat → List Nat → Dinode → Image → Option (Nat × Dinode × Image)
  | _, off, [], din, im => some (off, din, im)
  | 0, _, _ :: _, _, _ => none
  | fuel + 1, off, p, din, im =>
    let fbn := off / BSIZE
    if MAXFILE ≤ fbn then none
    else
      let (x, din, im) := blockFor fbn din im
      let n1 := min p.length ((fbn + 1) * BSIZE - off)
      let im := { im with
        data := Function.update im.data x (copyInto (im.data x) (off - fbn * BSIZE) (p.take n1)) }
      iappendLoop fuel (off + n1) (p.drop n1) din im

/-- `iappend(inum, p, n)`: the bytes `p` written at the end of inode `inum`. -/
def iappend (inum : Nat) (p : List Nat) (im : Image) : Option Image := do
  let din := im.dinode inum
  let (off, din, im) ← iappendLoop p.length din.size p din im
  return { im with dinode := Function.update im.dinode inum { din with size := off } }

/-- The bytes of `struct dirent` with `de.inum = xshort(inum)` and the name copied by `strcpy`
or `strncpy(de.name, name, DIRSIZ)` over zeroes. -/
def direntBytes (inum : Nat) (name : List Char) : List Nat :=
  [inum % 256, inum / 256 % 256] ++
    (name.map Char.toNat ++ List.replicate DIRSIZ 0).take DIRSIZ

/-- The name a file gets: `user/` and a leading `_` removed; `none` where an `assert` fails. -/
def shortName (path : List Char) : Option (List Char) :=
  let s := if path.take 5 = ['u', 's', 'e', 'r', '/'] then path.drop 5 else path
  if '/' ∈ s then none
  else
    let s := if s.head? = some '_' then s.tail else s
    if DIRSIZ < s.length then none else some s

/-- The loop `while((cc = read(fd, buf, sizeof(buf))) > 0) iappend(inum, buf, cc)` over the
bytes `bs` of a regular file, which `read` returns `BSIZE` at a time. -/
def copyFile (inum : Nat) : Nat → List Nat → Image → Option Image
  | _, [], im => some im
  | 0, _ :: _, _ => none
  | fuel + 1, bs, im => do
    let im ← iappend inum (bs.take BSIZE) im
    copyFile inum fuel (bs.drop BSIZE) im

/-- One round of the loop over the input files: `ialloc`, the root's entry, then the file's
bytes in chunks. -/
def addFile (rootino : Nat) (im : Image) (f : List Char × List Nat) : Option Image := do
  let name ← shortName f.1
  let (inum, im) := ialloc T_FILE im
  let im ← iappend rootino (direntBytes inum name) im
  copyFile inum f.2.length f.2 im

/-- `balloc(used)`: the bitmap with the first `used` blocks in use. -/
def balloc (used : Nat) (im : Image) : Option Image :=
  if BPB ≤ used then none else some { im with bitmap := fun b => decide (b < used) }

/-- `main` of `mkfs` with the input files (path and bytes). -/
def main (files : List (List Char × List Nat)) : Option Image := do
  let (rootino, im) := ialloc T_DIR Image.start
  if rootino ≠ ROOTINO then none
  let im ← iappend rootino (direntBytes rootino ['.']) im
  let im ← iappend rootino (direntBytes rootino ['.', '.']) im
  let im ← files.foldlM (addFile rootino) im
  -- fix size of root inode dir
  let din := im.dinode rootino
  let off := (din.size / BSIZE + 1) * BSIZE
  let im := { im with dinode := Function.update im.dinode rootino { din with size := off } }
  balloc im.freeblock im

/-- The blocks of the image as the kernel's block layer finds them after boot. -/
def kernelBlocks (im : Image) : Blocks.BState :=
  { bitmap := im.bitmap, addrs := fun i k => (im.dinode i).addrs k,
    size := fun i => (im.dinode i).size, ind := im.ind, logged := [] }

end Mkfs

end Xv6
