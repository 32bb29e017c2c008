import Mathlib
import Xv6.Param
import Xv6.Proc
import Xv6.Pipe

/-!
# The file system's names: inodes, directories and the calls that link and unlink them

The inode layer and the directory layer of `kernel/fs.c`, the calls of `kernel/sysfile.c`
that create, link, unlink and open names and that make and close descriptors, the file table
of `kernel/file.c`, the parts of `pipealloc` and `pipeclose` that concern files, and the parts
of `kfork` and `kexit` that hold files and current directories.

An inode is one record: what `ilock` reads and `iupdate` writes back agree, since every
change to a field that lives on disk is followed by `iupdate` under the inode's lock. A
directory's contents are its `struct dirent` slots in order (slot `k` at byte offset
`k * sizeof(struct dirent)`); other files' bytes are not modelled, only how many blocks they
hold, so that `balloc` fails when the bitmap has no free block left. The inode table is the
array `itable.inode[NINODE]` of entries with `dev`, `inum`, `ref` and `valid`; a pointer to an
in-memory inode is the index of its entry, and what the entry caches of the inode is read from
the inode number it holds. A system call runs start to end with nothing in between: the states
of the model are those between calls. A panic stops the kernel: the calls return
`Except String`.
-/

namespace Xv6

/-! ## On-disk format (`kernel/fs.h`, `kernel/stat.h`, `mkfs/mkfs.c`) -/

/-- `ROOTINO`: the root directory's inode number. -/
def ROOTINO : Nat := 1

/-- `BSIZE`: block size. -/
def BSIZE : Nat := 1024

/-- `NDIRECT`: direct block addresses in an inode. -/
def NDIRECT : Nat := 12

/-- `NINDIRECT`: block addresses in the indirect block. -/
def NINDIRECT : Nat := BSIZE / 4

/-- `MAXFILE`: blocks a file can have. -/
def MAXFILE : Nat := NDIRECT + NINDIRECT

/-- `DIRSIZ`: characters of a name in a directory entry. -/
def DIRSIZ : Nat := 14

/-- `sizeof(struct dirent)`: a `ushort` and `DIRSIZ` characters. -/
def direntSize : Nat := 2 + DIRSIZ

/-- `NINODES` of `mkfs`, which it writes to `sb.ninodes`. -/
def NINODES : Nat := 200

/-- The `type` of an inode: `0` for a free inode, `T_DIR`, `T_FILE`, `T_DEVICE`. -/
inductive IType where
  | free
  | dir
  | file
  | device
  deriving DecidableEq, Repr

/-- `struct dirent`; `inum` `0` marks a free slot. -/
structure Dirent where
  inum : Nat
  name : List Char
  deriving DecidableEq, Repr

/-- The zeroed `struct dirent` that `sys_unlink` writes over an entry. -/
def Dirent.empty : Dirent := ⟨0, []⟩

/-- An inode. -/
structure Inode where
  type : IType
  major : Int
  minor : Int
  nlink : Int
  /-- A directory's slots, in order. -/
  ents : List Dirent
  /-- Data and indirect blocks held. -/
  nblocks : Nat
  /-- `addrs[NDIRECT] != 0`: the indirect block is allocated. -/
  indirect : Bool
  deriving DecidableEq

/-- The dinode `ialloc` zeroes. -/
def Inode.zero : Inode := ⟨.free, 0, 0, 0, [], 0, false⟩

/-- An entry of `itable.inode`: the device and inode number it holds, its references, and
whether it has read the inode from disk. -/
structure IEntry where
  dev : Nat
  inum : Nat
  ref : Nat
  valid : Bool
  deriving DecidableEq, Repr

/-- A zeroed entry, as the static table starts. -/
def IEntry.zero : IEntry := ⟨0, 0, 0, false⟩

/-- The `type` of a `struct file` with the fields that go with it: the pipe and which end
(`writable`), or the in-memory inode. -/
inductive FileType where
  | none
  | pipe (pi : Nat) (writable : Bool)
  | inode (ip : Fin NINODE)
  | device (ip : Fin NINODE)
  deriving DecidableEq, Repr

/-- The in-memory inode an `FD_INODE` or `FD_DEVICE` file holds. -/
def FileType.ip? : FileType → Option (Fin NINODE)
  | .inode ip => some ip
  | .device ip => some ip
  | _ => Option.none

/-- `struct file` with its references and its type. -/
structure File where
  ref : Nat
  type : FileType

/-- The file system with the inode table, the file table and each process's files. -/
structure Fs where
  /-- Inodes by number. -/
  inode : Nat → Inode
  /-- `itable.inode`. -/
  itable : Fin NINODE → IEntry
  /-- Free blocks in the bitmap. -/
  nfree : Nat
  /-- `ftable.file`. -/
  file : Nat → File
  /-- `p->cwd` by process slot; `none` is `0`. -/
  cwd : Fin NPROC → Option (Fin NINODE)
  /-- `p->ofile[fd]`: an index into `ftable.file`. -/
  ofile : Fin NPROC → Nat → Option Nat
  /-- The pipes, by the page `kalloc` gave each. -/
  pipe : Nat → Pipe
  /-- Pages given to pipes so far: `kalloc` hands out a new one each time (which page it is
  does not matter here). -/
  npipe : Nat

/-- Change inode `i`. -/
def Fs.modify (s : Fs) (i : Nat) (f : Inode → Inode) : Fs :=
  { s with inode := Function.update s.inode i (f (s.inode i)) }

/-- The inode the entry `ip` holds: `ip->type`, `ip->nlink` and the rest. -/
def Fs.ino (s : Fs) (ip : Fin NINODE) : Inode := s.inode (s.itable ip).inum

/-- Change the inode the entry `ip` holds. -/
def Fs.modifyAt (s : Fs) (ip : Fin NINODE) (f : Inode → Inode) : Fs :=
  s.modify (s.itable ip).inum f

/-- Write the entry `ip` of the inode table. -/
def Fs.setEntry (s : Fs) (ip : Fin NINODE) (e : IEntry) : Fs :=
  { s with itable := Function.update s.itable ip e }

/-! ## The inode table -/

/-- The order in which the loop of `iget` visits the entries. -/
def islots : List (Fin NINODE) := List.finRange NINODE

/-- The loop of `iget(dev, inum)` over the entries `l`, with the first empty entry seen so far:
an entry with a reference that holds the inode gets one more; otherwise the first empty entry
is recycled for it, and with none the table is full. -/
def igetLoop (dev inum : Nat) (s : Fs) :
    List (Fin NINODE) → Option (Fin NINODE) → Except String (Fin NINODE × Fs)
  | [], none => .error "iget: no inodes"
  | [], some ip => .ok (ip, s.setEntry ip ⟨dev, inum, 1, false⟩)
  | ip :: rest, empty =>
    let e := s.itable ip
    if 0 < e.ref ∧ e.dev = dev ∧ e.inum = inum then
      .ok (ip, s.setEntry ip { e with ref := e.ref + 1 })
    else igetLoop dev inum s rest (if empty = none ∧ e.ref = 0 then some ip else empty)

/-- `iget(dev, inum)`: a reference to the entry of the inode, made (not valid) when there is
none. -/
def iget (dev inum : Nat) (s : Fs) : Except String (Fin NINODE × Fs) :=
  igetLoop dev inum s islots none

/-- `idup(ip)`. -/
def idup (ip : Fin NINODE) (s : Fs) : Fs :=
  s.setEntry ip { s.itable ip with ref := (s.itable ip).ref + 1 }

/-- `ilock(ip)`: reading the inode from disk, it panics on a free one. -/
def ilock (ip : Fin NINODE) (s : Fs) : Except String Fs :=
  if (s.itable ip).ref < 1 then .error "ilock"
  else if (s.itable ip).valid then .ok s
  else if (s.ino ip).type = .free then .error "ilock: no type"
  else .ok (s.setEntry ip { s.itable ip with valid := true })

/-- `itrunc(ip)`: every block goes back to the bitmap. -/
def itrunc (ip : Fin NINODE) (s : Fs) : Fs :=
  { s.modifyAt ip (fun d => { d with ents := [], nblocks := 0, indirect := false }) with
    nfree := s.nfree + (s.ino ip).nblocks }

/-- `iput(ip)`: the last reference to an inode with no links truncates and frees it. -/
def iput (ip : Fin NINODE) (s : Fs) : Fs :=
  let s := if (s.itable ip).ref = 1 ∧ (s.itable ip).valid = true ∧ (s.ino ip).nlink = 0 then
      ((itrunc ip s).modifyAt ip fun d => { d with type := .free }).setEntry ip
        { s.itable ip with valid := false }
    else s
  s.setEntry ip { s.itable ip with ref := (s.itable ip).ref - 1 }

/-- `ialloc(dev, type)`: the first free inode from `1` on, zeroed and typed, and a reference to
it; `none` when every inode is in use. -/
def ialloc (dev : Nat) (type : IType) (s : Fs) : Except String (Option (Fin NINODE × Fs)) :=
  match (List.range' 1 (NINODES - 1)).find? (fun i => (s.inode i).type == .free) with
  | none => .ok none
  | some i => do
    let (ip, s) ← iget dev i (s.modify i fun _ => { Inode.zero with type := type })
    return some (ip, s)

/-! ## Blocks, as far as `balloc` can fail -/

/-- `balloc(dev)`: one block off the bitmap, `none` when it is out of blocks. -/
def balloc (s : Fs) : Option Fs :=
  if 0 < s.nfree then some { s with nfree := s.nfree - 1 } else none

/-- `bmap(ip, bn)` for a block `bn` that `ip` does not have yet, and whether it got one. Past
`NDIRECT` the indirect block comes first, once; it stays when the data block cannot be had. -/
def bmapNew (ip : Fin NINODE) (bn : Nat) (s : Fs) : Fs × Bool :=
  let grow (s : Fs) : Fs := s.modifyAt ip fun d => { d with nblocks := d.nblocks + 1 }
  if bn < NDIRECT then
    match balloc s with
    | some s => (grow s, true)
    | none => (s, false)
  else
    let ind : Option Fs :=
      if (s.ino ip).indirect then some s
      else (balloc s).map fun s => (grow s).modifyAt ip fun d => { d with indirect := true }
    match ind with
    | none => (s, false)
    | some s =>
      match balloc s with
      | some s => (grow s, true)
      | none => (s, false)

/-! ## Directories -/

/-- The loop of `dirlookup` from slot `off` on: the first used slot whose name matches, and
the inode it names. -/
def dirlookupLoop (name : List Char) : Nat → List Dirent → Option (Nat × Nat)
  | _, [] => none
  | off, de :: ents =>
    if de.inum ≠ 0 ∧ de.name = name then some (off, de.inum)
    else dirlookupLoop name (off + 1) ents

/-- `dirlookup(dp, name, &off)` without the `iget`, which its callers do. `namecmp` compares
at most `DIRSIZ` characters, and both names here have at most that many. -/
def dirlookup (dp : Inode) (name : List Char) : Option (Nat × Nat) :=
  dirlookupLoop name 0 dp.ents

/-- The first slot with `inum` `0`, or the end of the directory. -/
def emptySlot : List Dirent → Nat
  | [] => 0
  | de :: ents => if de.inum = 0 then 0 else emptySlot ents + 1

/-- `dirlink(dp, name, inum)`: the file system, and whether it returned `0`. A name already
there is refused, after `dirlookup` took and `iput` gave back a reference to its inode; a free
slot is reused; otherwise `writei` appends a slot, which past `MAXFILE` blocks it refuses and
which, when it opens a new block, needs `bmap` to get one. -/
def dirlink (dp : Fin NINODE) (name : List Char) (inum : Nat) (s : Fs) : Except String (Fs × Bool) :=
  match dirlookup (s.ino dp) name with
  | some (_, i) => do
    let (ip, s) ← iget (s.itable dp).dev i s
    return (iput ip s, false)
  | none =>
    let ents := (s.ino dp).ents
    let off := emptySlot ents
    let de : Dirent := ⟨inum, name.take DIRSIZ⟩
    if off < ents.length then .ok (s.modifyAt dp fun d => { d with ents := ents.set off de }, true)
    else if MAXFILE * BSIZE < (off + 1) * direntSize then .ok (s, false)
    else
      let r := if off * direntSize % BSIZE = 0 then bmapNew dp (off * direntSize / BSIZE) s
        else (s, true)
      if r.2 then .ok (r.1.modifyAt dp fun d => { d with ents := ents ++ [de] }, true)
      else .ok (r.1, false)

/-- `isdirempty(dp)`: no used slot after `.` and `..`. -/
def isdirempty (dp : Inode) : Bool :=
  (dp.ents.drop 2).all fun de => de.inum == 0

/-! ## Paths -/

/-- `skipelem(path, name)`: the next element, cut to `DIRSIZ` characters, and the rest of the
path without its leading slashes; `none` when no element is left. -/
def skipelem (path : List Char) : Option (List Char × List Char) :=
  match path.dropWhile (· == '/') with
  | [] => none
  | path =>
    some ((path.takeWhile (· != '/')).take DIRSIZ,
      (path.dropWhile (· != '/')).dropWhile (· == '/'))

/-- `p->cwd`, which a process that runs has; `idup` or `iput` of a null pointer traps. -/
def Fs.curdir (s : Fs) (p : Fin NPROC) : Except String (Fin NINODE) :=
  match s.cwd p with
  | some c => .ok c
  | none => .error "kerneltrap"

/-- The loop of `namex`, holding a reference to `ip`: the inode (with, for `nameiparent`, the
last element), or `none` after giving the reference back. `fuel` bounds the elements left;
`skipelem` takes at least one character each time. -/
def namexLoop (parent : Bool) : Nat → Fin NINODE → List Char → List Char → Fs →
    Except String (Option (Fin NINODE × List Char) × Fs)
  | 0, ip, _, name, s => .ok (some (ip, name), s)
  | fuel + 1, ip, path, name, s =>
    match skipelem path with
    | none => if parent then .ok (none, iput ip s) else .ok (some (ip, name), s)
    | some (name, path) => do
      let s ← ilock ip s
      if (s.ino ip).type ≠ .dir then return (none, iput ip s)
      -- `nameiparent` stops one level early
      if parent ∧ path = [] then return (some (ip, name), s)
      match dirlookup (s.ino ip) name with
      | none => return (none, iput ip s)
      -- `dirlookup` takes the reference to `next` before `iunlockput(ip)`
      | some (_, i) =>
        let (next, s) ← iget (s.itable ip).dev i s
        namexLoop parent fuel next path name (iput ip s)

/-- `namex(path, nameiparent, name)` in process `p`: from the root for an absolute path, from
`p->cwd` otherwise. -/
def namex (p : Fin NPROC) (path : List Char) (parent : Bool) (s : Fs) :
    Except String (Option (Fin NINODE × List Char) × Fs) := do
  let (ip, s) ← if path.head? = some '/' then iget ROOTDEV ROOTINO s
    else do
      let c ← s.curdir p
      pure (c, idup c s)
  namexLoop parent (path.length + 1) ip path [] s

/-- `namei(path)`. -/
def namei (p : Fin NPROC) (path : List Char) (s : Fs) : Except String (Option (Fin NINODE) × Fs) := do
  let (r, s) ← namex p path false s
  return (r.map Prod.fst, s)

/-- `nameiparent(path, name)`. -/
def nameiparent (p : Fin NPROC) (path : List Char) (s : Fs) :
    Except String (Option (Fin NINODE × List Char) × Fs) :=
  namex p path true s

/-! ## System calls -/

/-- `(short)v`: `major`, `minor` and `type` are `short` fields. -/
def toShort (v : Int) : Int := Int.bmod v 65536

/-- The part of `create` after `ialloc` gave `ip`, with `dp` locked: the file system, and
whether it succeeded. `ip` gets its fields and one link, a directory its `.` and `..`, and
`dp` the entry and (for a directory) the link of `..`; on the `fail` path `ip` gets no link
and is given back. -/
def createNew (dp : Fin NINODE) (name : List Char) (ip : Fin NINODE) (type : IType)
    (major minor : Int) (s : Fs) : Except String (Fs × Bool) := do
  let s := s.modifyAt ip fun d =>
    { d with major := toShort major, minor := toShort minor, nlink := 1 }
  -- no `ip->nlink++` for `.`: it would be a cycle
  let r ← (if type = .dir then do
      let r ← dirlink ip ['.'] (s.itable ip).inum s
      if r.2 then dirlink ip ['.', '.'] (s.itable dp).inum r.1 else pure r
    else pure (s, true) : Except String (Fs × Bool))
  let r ← (if r.2 then dirlink dp name (s.itable ip).inum r.1 else pure r :
    Except String (Fs × Bool))
  if r.2 then
    return ((if type = .dir then r.1.modifyAt dp fun d => { d with nlink := d.nlink + 1 }
      else r.1), true)
  else return (iput ip (r.1.modifyAt ip fun d => { d with nlink := 0 }), false)

/-- `create(path, type, major, minor)` in process `p`: the locked inode, or `none`. An
existing file is opened again by `open` with `O_CREATE`; everything else that exists is
refused. -/
def create (p : Fin NPROC) (path : List Char) (type : IType) (major minor : Int) (s : Fs) :
    Except String (Option (Fin NINODE) × Fs) := do
  let (r, s) ← nameiparent p path s
  match r with
  | none => return (none, s)
  | some (dp, name) =>
    let s ← ilock dp s
    match dirlookup (s.ino dp) name with
    | some (_, i) =>
      let (ip, s) ← iget (s.itable dp).dev i s
      let s ← ilock ip (iput dp s)
      if type = .file ∧ ((s.ino ip).type = .file ∨ (s.ino ip).type = .device) then
        return (some ip, s)
      else return (none, iput ip s)
    | none =>
      match ← ialloc (s.itable dp).dev type s with
      | none => return (none, iput dp s)
      | some (ip, s) =>
        let s ← ilock ip s
        let r ← createNew dp name ip type major minor s
        return (if r.2 then some ip else none, iput dp r.1)

/-- `argstr(n, buf, MAXPATH)` fails on a string with no terminator in `MAXPATH` bytes. -/
def argstrOk (path : List Char) : Prop := path.length < MAXPATH

instance (path : List Char) : Decidable (argstrOk path) :=
  inferInstanceAs (Decidable (path.length < MAXPATH))

/-- `sys_mkdir(path)`. -/
def sysMkdir (p : Fin NPROC) (path : List Char) (s : Fs) : Except String (Fs × Int) := do
  if ¬ argstrOk path then return (s, -1)
  let (r, s) ← create p path .dir 0 0 s
  match r with
  | none => return (s, -1)
  | some ip => return (iput ip s, 0)

/-- `sys_mknod(path, major, minor)`. -/
def sysMknod (p : Fin NPROC) (path : List Char) (major minor : Int) (s : Fs) :
    Except String (Fs × Int) := do
  if ¬ argstrOk path then return (s, -1)
  let (r, s) ← create p path .device major minor s
  match r with
  | none => return (s, -1)
  | some ip => return (iput ip s, 0)

/-- `sys_link(old, new)`: `ip` gets its link first and gives it back on the `bad` path. -/
def sysLink (p : Fin NPROC) (old new : List Char) (s : Fs) : Except String (Fs × Int) := do
  if ¬ (argstrOk old ∧ argstrOk new) then return (s, -1)
  let (r, s) ← namei p old s
  match r with
  | none => return (s, -1)
  | some ip =>
    let s ← ilock ip s
    if (s.ino ip).type = .dir then return (iput ip s, -1)
    let s := s.modifyAt ip fun d => { d with nlink := d.nlink + 1 }
    let bad (s : Fs) : Except String (Fs × Int) := do
      let s ← ilock ip s
      return (iput ip (s.modifyAt ip fun d => { d with nlink := d.nlink - 1 }), -1)
    let (r, s) ← nameiparent p new s
    match r with
    | none => bad s
    | some (dp, name) =>
      let s ← ilock dp s
      if (s.itable dp).dev ≠ (s.itable ip).dev then bad (iput dp s)
      else
        let r ← dirlink dp name (s.itable ip).inum s
        if r.2 then return (iput ip (iput dp r.1), 0) else bad (iput dp r.1)

/-- The body of `sys_unlink` once `nameiparent` gave `dp`, locked, and the last element. -/
def unlinkAt (dp : Fin NINODE) (name : List Char) (s : Fs) : Except String (Fs × Int) := do
  if name = ['.'] ∨ name = ['.', '.'] then return (iput dp s, -1)
  match dirlookup (s.ino dp) name with
  | none => return (iput dp s, -1)
  | some (off, i) =>
    let (ip, s) ← iget (s.itable dp).dev i s
    let s ← ilock ip s
    if (s.ino ip).nlink < 1 then throw "unlink: nlink < 1"
    if (s.ino ip).type = .dir ∧ isdirempty (s.ino ip) = false then
      return (iput dp (iput ip s), -1)
    let s := s.modifyAt dp fun d => { d with ents := d.ents.set off Dirent.empty }
    let s := if (s.ino ip).type = .dir then s.modifyAt dp fun d => { d with nlink := d.nlink - 1 }
      else s
    let s := iput dp s
    let s := s.modifyAt ip fun d => { d with nlink := d.nlink - 1 }
    return (iput ip s, 0)

/-- `sys_unlink(path)`. -/
def sysUnlink (p : Fin NPROC) (path : List Char) (s : Fs) : Except String (Fs × Int) := do
  if ¬ argstrOk path then return (s, -1)
  let (r, s) ← nameiparent p path s
  match r with
  | none => return (s, -1)
  | some (dp, name) => unlinkAt dp name (← ilock dp s)

/-- `sys_chdir(path)`. -/
def sysChdir (p : Fin NPROC) (path : List Char) (s : Fs) : Except String (Fs × Int) := do
  if ¬ argstrOk path then return (s, -1)
  let (r, s) ← namei p path s
  match r with
  | none => return (s, -1)
  | some ip =>
    let s ← ilock ip s
    if (s.ino ip).type ≠ .dir then return (iput ip s, -1)
    let s := iput (← s.curdir p) s
    return ({ s with cwd := Function.update s.cwd p (some ip) }, 0)

/-- `filealloc()`: the first free `struct file`, with one reference and type `FD_NONE`. -/
def filealloc (s : Fs) : Option (Nat × Fs) :=
  match (List.range NFILE).find? (fun f => (s.file f).ref == 0) with
  | none => none
  | some f => some (f, { s with file := Function.update s.file f ⟨1, .none⟩ })

/-- `fdalloc(f)` in process `p`: the first free descriptor. -/
def fdalloc (p : Fin NPROC) (s : Fs) : Option Nat :=
  (List.range NOFILE).find? fun fd => (s.ofile p fd).isNone

/-- `filedup(f)`. -/
def filedup (f : Nat) (s : Fs) : Except String Fs :=
  if (s.file f).ref < 1 then .error "filedup"
  else .ok { s with file := Function.update s.file f { s.file f with ref := (s.file f).ref + 1 } }

/-- `fileclose(f)`: the last reference closes the pipe's end or gives the inode back. -/
def fileclose (f : Nat) (s : Fs) : Except String Fs :=
  let fl := s.file f
  if fl.ref < 1 then .error "fileclose"
  else if 0 < fl.ref - 1 then .ok { s with file := Function.update s.file f { fl with ref := fl.ref - 1 } }
  else
    let s := { s with file := Function.update s.file f ⟨0, .none⟩ }
    match fl.type with
    | .pipe pi w => .ok { s with pipe := Function.update s.pipe pi (pipeclose (s.pipe pi) w).1 }
    | .inode ip | .device ip => .ok (iput ip s)
    | .none => .ok s

/-- `O_RDONLY`, `O_WRONLY`, `O_CREATE`, `O_TRUNC` of `kernel/fcntl.h`. -/
def O_RDONLY : Nat := 0x000
def O_WRONLY : Nat := 0x001
def O_CREATE : Nat := 0x200
def O_TRUNC : Nat := 0x400

/-- `sys_open(path, omode)`: the descriptor, or `-1`. -/
def sysOpen (p : Fin NPROC) (path : List Char) (omode : Nat) (s : Fs) :
    Except String (Fs × Int) := do
  if ¬ argstrOk path then return (s, -1)
  let (r, s) ← if omode &&& O_CREATE ≠ 0 then create p path .file 0 0 s
    else do
      let (r, s) ← namei p path s
      match r with
      | none => pure (none, s)
      | some ip =>
        let s ← ilock ip s
        if (s.ino ip).type = .dir ∧ omode ≠ O_RDONLY then pure (none, iput ip s)
        else pure (some ip, s)
  match r with
  | none => return (s, -1)
  | some ip =>
    let d := s.ino ip
    if d.type = .device ∧ (d.major < 0 ∨ NDEV ≤ d.major) then return (iput ip s, -1)
    match filealloc s with
    | none => return (iput ip s, -1)
    | some (f, s) =>
      match fdalloc p s with
      | none =>
        let s ← fileclose f s
        return (iput ip s, -1)
      | some fd =>
        let s := { s with
          file := Function.update s.file f ⟨1, if d.type = .device then .device ip else .inode ip⟩
          ofile := Function.update s.ofile p (Function.update (s.ofile p) fd (some f)) }
        let s := if omode &&& O_TRUNC ≠ 0 ∧ (s.ino ip).type = .file then itrunc ip s else s
        return (s, (fd : Int))

/-- `sys_close(fd)`. -/
def sysClose (p : Fin NPROC) (fd : Int) (s : Fs) : Except String (Fs × Int) :=
  if fd < 0 ∨ NOFILE ≤ fd then .ok (s, -1)
  else
    match s.ofile p fd.toNat with
    | none => .ok (s, -1)
    | some f => do
      let s ← fileclose f
        { s with ofile := Function.update s.ofile p (Function.update (s.ofile p) fd.toNat none) }
      return (s, 0)

/-- The loop of `kexit` that closes `p`'s descriptors from `fd` on. -/
def closeAllLoop (p : Fin NPROC) : Nat → Nat → Fs → Except String Fs
  | 0, _, s => .ok s
  | n + 1, fd, s =>
    match s.ofile p fd with
    | none => closeAllLoop p n (fd + 1) s
    | some f => do
      let s ← fileclose f s
      closeAllLoop p n (fd + 1)
        { s with ofile := Function.update s.ofile p (Function.update (s.ofile p) fd none) }

/-- The files part of `kexit`: close every descriptor, then give the current directory back. -/
def kexitFiles (p : Fin NPROC) (s : Fs) : Except String Fs := do
  if p = initproc then throw "init exiting"
  let s ← closeAllLoop p NOFILE 0 s
  let s := iput (← s.curdir p) s
  return { s with cwd := Function.update s.cwd p none }

/-- The files part of `kfork` into the free slot `np`: `filedup` of every descriptor and
`idup` of the current directory. -/
def kforkFiles (p np : Fin NPROC) (s : Fs) : Except String Fs := do
  let s ← (List.range NOFILE).foldlM (fun s fd =>
    match s.ofile p fd with
    | some f => filedup f s
    | none => .ok s) s
  let c ← s.curdir p
  return { idup c s with
    cwd := Function.update s.cwd np (some c)
    ofile := Function.update s.ofile np (s.ofile p) }

/-- `p->ofile[fd] = v`. -/
def Fs.setOfile (s : Fs) (p : Fin NPROC) (fd : Nat) (v : Option Nat) : Fs :=
  { s with ofile := Function.update s.ofile p (Function.update (s.ofile p) fd v) }

/-- `argfd(n, 0, &f)` on the descriptor `fd`: the file it holds. -/
def argfd (p : Fin NPROC) (fd : Int) (s : Fs) : Option Nat :=
  if fd < 0 ∨ NOFILE ≤ fd then none else s.ofile p fd.toNat

/-- `sys_dup(fd)`: `fdalloc` takes over the reference `filedup` then makes. -/
def sysDup (p : Fin NPROC) (fd : Int) (s : Fs) : Except String (Fs × Int) :=
  match argfd p fd s with
  | none => .ok (s, -1)
  | some f =>
    match fdalloc p s with
    | none => .ok (s, -1)
    | some fd' => do
      let s ← filedup f (s.setOfile p fd' (some f))
      return (s, (fd' : Int))

/-- `pipealloc(&f0, &f1)`, given whether `kalloc` has a page: the read and the write file, or
`none` after closing the files it took. -/
def Fs.pipealloc (kallocOk : Bool) (s : Fs) : Except String (Option (Nat × Nat) × Fs) :=
  match filealloc s with
  | none => .ok (none, s)
  | some (f0, s) =>
    match filealloc s with
    | none => do return (none, ← fileclose f0 s)
    | some (f1, s) =>
      if !kallocOk then do
        let s ← fileclose f0 s
        let s ← fileclose f1 s
        return (none, s)
      else
        let pi := s.npipe
        .ok (some (f0, f1), { s with
          file := Function.update (Function.update s.file f0 ⟨1, .pipe pi false⟩) f1
            ⟨1, .pipe pi true⟩
          pipe := Function.update s.pipe pi (Xv6.pipealloc fun _ => 5)
          npipe := s.npipe + 1 })

/-- `sys_pipe(fdarray)`, given whether `kalloc` has a page and whether both `copyout`s of the
descriptors succeed. -/
def sysPipe (p : Fin NPROC) (kallocOk copyOk : Bool) (s : Fs) : Except String (Fs × Int) := do
  let (r, s) ← s.pipealloc kallocOk
  match r with
  | none => return (s, -1)
  | some (rf, wf) =>
    match fdalloc p s with
    | none =>
      let s ← fileclose rf s
      let s ← fileclose wf s
      return (s, -1)
    | some fd0 =>
      let s := s.setOfile p fd0 (some rf)
      match fdalloc p s with
      | none =>
        let s ← fileclose rf (s.setOfile p fd0 none)
        let s ← fileclose wf s
        return (s, -1)
      | some fd1 =>
        let s := s.setOfile p fd1 (some wf)
        if copyOk then return (s, 0)
        else
          let s ← fileclose rf ((s.setOfile p fd0 none).setOfile p fd1 none)
          let s ← fileclose wf s
          return (s, -1)

/-! ## Runs -/

/-- A call on the file system's names, by one process. -/
inductive FsCall where
  | open (path : List Char) (omode : Nat)
  | mkdir (path : List Char)
  | mknod (path : List Char) (major minor : Int)
  | link (old new : List Char)
  | unlink (path : List Char)
  | chdir (path : List Char)
  | close (fd : Int)
  | dup (fd : Int)
  /-- `pipe(fdarray)`, with whether `kalloc` and the `copyout`s succeed. -/
  | pipe (kallocOk copyOk : Bool)
  /-- `fork()` into the free slot `np`. -/
  | fork (np : Fin NPROC)
  | exit

/-- What the call does, in process `p`. -/
def sysCall (p : Fin NPROC) : FsCall → Fs → Except String (Fs × Int)
  | .open path omode, s => sysOpen p path omode s
  | .mkdir path, s => sysMkdir p path s
  | .mknod path major minor, s => sysMknod p path major minor s
  | .link old new, s => sysLink p old new s
  | .unlink path, s => sysUnlink p path s
  | .chdir path, s => sysChdir p path s
  | .close fd, s => sysClose p fd s
  | .dup fd, s => sysDup p fd s
  | .pipe kallocOk copyOk, s => sysPipe p kallocOk copyOk s
  | .fork np, s => do return (← kforkFiles p np s, 0)
  | .exit, s => do return (← kexitFiles p s, 0)

/-- The call can be made on `s`: a `fork` needs its slot free. -/
def FsCall.slotFree (s : Fs) : FsCall → Bool
  | .fork np => (s.cwd np).isNone
  | _ => true

/-- The next state after process `p` makes a call; `none` when `p` has no current directory
(it is not running), when `fork` names a slot in use, or when the kernel panics. -/
def Fs.next (s : Fs) (e : Fin NPROC × FsCall) : Option Fs :=
  if s.cwd e.1 = none ∨ e.2.slotFree s = false then none
  else
    match sysCall e.1 e.2 s with
    | .ok (s', _) => some s'
    | .error _ => none

/-- One call, as a transition. -/
def FsStep (s : Fs) (e : Fin NPROC × FsCall) (t : Fs) : Prop := s.next e = some t

/-! ## The image `mkfs` builds, and boot -/

/-- `IPB`: inodes per block (`sizeof(struct dinode)` is 64). -/
def IPB : Nat := BSIZE / 64

/-- `BPB`: bitmap bits per block. -/
def BPB : Nat := BSIZE * 8

/-- `nmeta` of `mkfs`: boot block, superblock, log, inode blocks and bitmap. -/
def nmeta : Nat := 2 + (LOGBLOCKS + 1) + (NINODES / IPB + 1) + (FSSIZE / BPB + 1)

/-- Blocks `mkfs` gives a file of `n` data blocks: past `NDIRECT`, one more for the
indirect block. -/
def fileBlocks (n : Nat) : Nat := if NDIRECT < n then n + 1 else n

/-- The root directory of `mkfs` with `files`, given inode numbers from `2` on: `.` and `..`,
an entry per file, and free slots up to the next whole block (`mkfs` fixes its size so). -/
def mkfsRootEnts (files : List (List Char × Nat)) : List Dirent :=
  let ents := [⟨ROOTINO, ['.']⟩, ⟨ROOTINO, ['.', '.']⟩] ++
    files.zipIdx.map fun (f, k) => (⟨k + 2, f.1.take DIRSIZ⟩ : Dirent)
  ents ++ List.replicate ((ents.length / (BSIZE / direntSize) + 1) * (BSIZE / direntSize) -
    ents.length) Dirent.empty

/-- The inodes of the image `mkfs` writes with `files` (name, data blocks): every inode it
allocates has one link. -/
def mkfsInode (files : List (List Char × Nat)) (i : Nat) : Inode :=
  if i = ROOTINO then
    let ents := mkfsRootEnts files
    { type := .dir, major := 0, minor := 0, nlink := 1, ents := ents,
      nblocks := fileBlocks (ents.length / (BSIZE / direntSize)),
      indirect := decide (NDIRECT < ents.length / (BSIZE / direntSize)) }
  else if 2 ≤ i ∧ i < files.length + 2 then
    let n := (files.getD (i - 2) ([], 0)).2
    { type := .file, major := 0, minor := 0, nlink := 1, ents := [], nblocks := fileBlocks n,
      indirect := decide (NDIRECT < n) }
  else Inode.zero

/-- The entry of the root, which `userinit` takes for `initproc`'s current directory. -/
def rootSlot : Fin NINODE := ⟨0, by decide⟩

/-- The kernel after boot on that image: `fsinit` (which finds nothing to reclaim) and
`userinit`, whose `initproc` has the root as its current directory. -/
def Fs.boot (files : List (List Char × Nat)) : Fs :=
  { inode := mkfsInode files
    itable := Function.update (fun _ => IEntry.zero) rootSlot ⟨ROOTDEV, ROOTINO, 1, false⟩
    nfree := FSSIZE - nmeta - ((List.range (files.length + 2)).map fun i =>
      (mkfsInode files i).nblocks).sum
    file := fun _ => ⟨0, .none⟩
    cwd := Function.update (fun _ => none) initproc (some rootSlot)
    ofile := fun _ _ => none
    pipe := fun _ => ⟨fun _ => 0, 0, 0, false, false⟩
    npipe := 0 }

end Xv6
