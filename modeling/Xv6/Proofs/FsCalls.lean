import Mathlib
import Xv6.Proofs.FsInodes

/-!
# The file table and the system calls on names and descriptors

Between system calls every `struct file` is held by the descriptors that name it
(`fileRefs`), a free one has type `FD_NONE`, and each end of a pipe is open exactly while one
file is that end. Within a call, the file references it holds are a list `pend`
(`FTable s pend`): `filealloc` and `filedup` push one, handing one to a descriptor pops it, and
`fileclose` pops one and, on the last, closes the pipe's end or gives the inode back.

`FsInv` is both tables exact with nothing held. Each system call keeps it, and keeps every
directory as it was made (`mkdir` may also make one).
-/

namespace Xv6

/-! ## Who holds a file -/

/-- The descriptors of one process that hold file `f`. -/
def fdRefs (row : Nat → Option Nat) (f : Nat) : Nat :=
  Count.count (Finset.range NOFILE) row (· = some f)

/-- The descriptors of every process that hold file `f`. -/
def fileRefs (s : Fs) (f : Nat) : Nat := ∑ p : Fin NPROC, fdRefs (s.ofile p) f

/-- Whether the end `w` of a pipe is open: `writeopen` for the write end. -/
def pipeOpen (pi : Pipe) (w : Bool) : Bool := if w then pi.writeopen else pi.readopen

/-- The files that are the end `w` of pipe `pi`. -/
def pipeFiles (s : Fs) (pi : Nat) (w : Bool) : Nat :=
  Count.count (Finset.range NFILE) (fun f => (s.file f).type) (· = .pipe pi w)

/-- The file table of `s` while a call holds the file references `pend`: descriptors name
files of the table and belong to processes that have a current directory; each file's `ref`
counts its descriptors and the call's references; no descriptor holds an `FD_NONE` file, and a
file with count zero is `FD_NONE`; each end of a pipe is one file while it is open and none
after. -/
structure FTable (s : Fs) (pend : List Nat) : Prop where
  ofile_lt : ∀ p fd f, s.ofile p fd = some f → fd < NOFILE ∧ f < NFILE
  dead : ∀ p fd, s.cwd p = none → s.ofile p fd = none
  ref_eq : ∀ f < NFILE, (s.file f).ref = fileRefs s f + pend.count f
  none_unheld : ∀ f < NFILE, (s.file f).type = .none → fileRefs s f = 0
  free_none : ∀ f < NFILE, (s.file f).ref = 0 → (s.file f).type = .none
  pend_lt : ∀ f ∈ pend, f < NFILE
  pipe_ends : ∀ pi w, pipeFiles s pi w = if pipeOpen (s.pipe pi) w then 1 else 0
  pipe_new : ∀ pi w, s.npipe ≤ pi → pipeOpen (s.pipe pi) w = false

/-- Between system calls: both tables exact, nothing held by a call. -/
structure FsInv (s : Fs) : Prop where
  ftable : FTable s []
  itable : ITable s []

namespace FTable

variable {s t : Fs} {pend : List Nat}

/-- The file table only depends on what the inode layer leaves alone. -/
theorem of_same (hs : FTable s pend) (h : s.SameFiles t) : FTable t pend := by
  have hrefs : fileRefs t = fileRefs s := by
    funext f
    rw [fileRefs, fileRefs, h.ofile]
  have hpipes : pipeFiles t = pipeFiles s := by
    funext pi w
    rw [pipeFiles, pipeFiles, h.file]
  refine ⟨?_, ?_, ?_, ?_, ?_, hs.pend_lt, ?_, ?_⟩ <;> simp only [h.file, h.ofile, h.cwd, h.pipe,
    h.npipe, hrefs, hpipes]
  · exact hs.ofile_lt
  · exact hs.dead
  · exact hs.ref_eq
  · exact hs.none_unheld
  · exact hs.free_none
  · exact hs.pipe_ends
  · exact hs.pipe_new

/-- A file held by a descriptor or by the call has a positive count. -/
theorem one_le_ref {f : Nat} (hs : FTable s pend) (hf : f < NFILE)
    (h : 0 < fileRefs s f ∨ f ∈ pend) : 1 ≤ (s.file f).ref := by
  rw [hs.ref_eq f hf]
  rcases h with h | h
  · omega
  · have := List.count_pos_iff.mpr h
    omega

end FTable

/-! ## Calls of the inode layer alone -/

section InodeCalls

variable {p : Fin NPROC} {s t : Fs} {r : Int}

theorem FsInv.of_step (hs : FsInv s) (hstep : IStep s t []) : FsInv t :=
  ⟨hs.ftable.of_same hstep.same, hstep.itable⟩

/-- `sys_mkdir`: a directory it makes is made in the directory its path names. -/
theorem FsInv.sysMkdir {path : List Char} (hs : FsInv s)
    (hrun : Xv6.sysMkdir p path s = .ok (t, r)) : FsInv t ∧ DirStep s t := by
  unfold Xv6.sysMkdir at hrun
  by_cases hok : argstrOk path
  swap
  · rw [if_pos hok] at hrun
    obtain ⟨rfl, rfl⟩ := Prod.mk.inj (Except.ok.inj hrun)
    exact ⟨hs, (DirsKept.refl s).dirStep⟩
  rw [if_neg (not_not.mpr hok)] at hrun
  obtain ⟨⟨r₀, s₁⟩, hc, hrun⟩ := Loop.bind_eq_ok.mp hrun
  obtain ⟨hit, hsame, -, -, hdirs⟩ := create_spec hs.itable (by decide) hc
  have hft := hs.ftable.of_same hsame
  cases r₀ with
  | none =>
    obtain ⟨rfl, rfl⟩ := Prod.mk.inj (Except.ok.inj hrun)
    exact ⟨⟨hft, hit⟩, hdirs⟩
  | some ip =>
    obtain ⟨rfl, rfl⟩ := Prod.mk.inj (Except.ok.inj hrun)
    have hput := hit.iput_head
    exact ⟨⟨hft.of_same hput.same, hput.itable⟩, hdirs.of_free (iput_inode_or_free ip · s₁)⟩

/-- `sys_mknod`. -/
theorem FsInv.sysMknod {path : List Char} {major minor : Int} (hs : FsInv s)
    (hrun : Xv6.sysMknod p path major minor s = .ok (t, r)) :
    FsInv t ∧ DirsKept s t := by
  unfold Xv6.sysMknod at hrun
  by_cases hok : argstrOk path
  swap
  · rw [if_pos hok] at hrun
    obtain ⟨rfl, rfl⟩ := Prod.mk.inj (Except.ok.inj hrun)
    exact ⟨hs, .refl s⟩
  rw [if_neg (not_not.mpr hok)] at hrun
  obtain ⟨⟨r₀, s₁⟩, hc, hrun⟩ := Loop.bind_eq_ok.mp hrun
  obtain ⟨hit, hsame, -, hkept, -⟩ := create_spec hs.itable (by decide) hc
  have hft := hs.ftable.of_same hsame
  have hkept := hkept (by decide)
  cases r₀ with
  | none =>
    obtain ⟨rfl, rfl⟩ := Prod.mk.inj (Except.ok.inj hrun)
    exact ⟨⟨hft, hit⟩, hkept⟩
  | some ip =>
    obtain ⟨rfl, rfl⟩ := Prod.mk.inj (Except.ok.inj hrun)
    have hput := hit.iput_head
    exact ⟨⟨hft.of_same hput.same, hput.itable⟩, hkept.trans hput.kept⟩

/-- The `bad` path of `sys_link`: the link it gave `ip` goes back with the reference. -/
theorem link_bad {ip : Fin NINODE} {s t : Fs} {r : Int} (hs : ITable s [ip])
    (hrun : (do
      let s ← ilock ip s
      return (iput ip (s.modifyAt ip fun d => { d with nlink := d.nlink - 1 }), (-1 : Int)) :
        Except String (Fs × Int)) = .ok (t, r)) : IStep s t [] := by
  obtain ⟨s₁, hl, hrun⟩ := Loop.bind_eq_ok.mp hrun
  obtain ⟨rfl, rfl⟩ := Prod.mk.inj (Except.ok.inj hrun)
  obtain ⟨hstep₁, -⟩ := hs.ilock hl
  have hsh : s₁.SameShape (s₁.modifyAt ip fun d => { d with nlink := d.nlink - 1 }) :=
    .modifyAt rfl rfl
  have hmod := IStep.of_sameShape hstep₁.itable hsh
  exact hstep₁.trans (hmod.trans hmod.itable.iput_head)

/-- `sys_link`: every reference it takes goes back, and the entry it makes keeps the
directory well formed. -/
theorem FsInv.sysLink {old new : List Char} (hs : FsInv s)
    (hrun : Xv6.sysLink p old new s = .ok (t, r)) : FsInv t ∧ DirsKept s t := by
  suffices hstep : IStep s t [] from ⟨hs.of_step hstep, hstep.kept⟩
  unfold Xv6.sysLink at hrun
  by_cases hok : argstrOk old ∧ argstrOk new
  swap
  · rw [if_pos hok] at hrun
    obtain ⟨rfl, rfl⟩ := Prod.mk.inj (Except.ok.inj hrun)
    exact .refl hs.itable
  rw [if_neg (not_not.mpr hok)] at hrun
  obtain ⟨⟨r₀, s₁⟩, hn, hrun⟩ := Loop.bind_eq_ok.mp hrun
  have hstep₁ := namei_ok hs.itable hn
  rw [List.append_nil] at hstep₁
  cases r₀ with
  | none =>
    obtain ⟨rfl, rfl⟩ := Prod.mk.inj (Except.ok.inj hrun)
    exact hstep₁
  | some ip =>
    obtain ⟨s₂, hl₂, hrun⟩ := Loop.bind_eq_ok.mp hrun
    obtain ⟨hstep₂, -⟩ := hstep₁.itable.ilock hl₂
    have hpre := hstep₁.trans hstep₂
    dsimp only at hrun
    by_cases hdir : (s₂.ino ip).type = .dir
    · rw [if_pos hdir] at hrun
      obtain ⟨rfl, rfl⟩ := Prod.mk.inj (Except.ok.inj hrun)
      exact hpre.trans hpre.itable.iput_head
    rw [if_neg hdir] at hrun
    -- `ip` gets its link before `nameiparent`
    have hsh : s₂.SameShape (s₂.modifyAt ip fun d => { d with nlink := d.nlink + 1 }) :=
      .modifyAt rfl rfl
    have hmod := IStep.of_sameShape hpre.itable hsh
    obtain ⟨⟨r₁, s₄⟩, hn₄, hrun⟩ := Loop.bind_eq_ok.mp hrun
    obtain ⟨hstep₄, hparent⟩ := namex_ok hmod.itable hn₄
    have hmid := (hpre.trans hmod).trans hstep₄
    cases r₁ with
    | none => exact hmid.trans (link_bad hmid.itable hrun)
    | some e =>
      obtain ⟨dp, name⟩ := e
      obtain ⟨hname, -⟩ := hparent dp name rfl
      obtain ⟨s₅, hl₅, hrun⟩ := Loop.bind_eq_ok.mp hrun
      obtain ⟨hstep₅, -⟩ := hmid.itable.ilock hl₅
      have hpre₅ := hmid.trans hstep₅
      split_ifs at hrun
      · -- a link across devices is refused: `dp` goes back, then the link
        have hputdp := hpre₅.itable.iput_head
        exact (hpre₅.trans hputdp).trans (link_bad hputdp.itable hrun)
      · obtain ⟨r₂, hd, hrun⟩ := Loop.bind_eq_ok.mp hrun
        obtain ⟨hlink, -⟩ := hpre₅.itable.dirlink (hpre₅.itable.one_le_ref (by simp)) hname hd
        have hpre₆ := hpre₅.trans hlink
        have hputdp := hpre₆.itable.iput_head
        split_ifs at hrun
        · obtain ⟨rfl, rfl⟩ := Prod.mk.inj (Except.ok.inj hrun)
          exact (hpre₆.trans hputdp).trans hputdp.itable.iput_head
        · exact (hpre₆.trans hputdp).trans (link_bad hputdp.itable hrun)

/-- `sys_unlink`. -/
theorem FsInv.sysUnlink {path : List Char} (hs : FsInv s)
    (hrun : Xv6.sysUnlink p path s = .ok (t, r)) : FsInv t ∧ DirsKept s t := by
  suffices hstep : IStep s t [] from ⟨hs.of_step hstep, hstep.kept⟩
  unfold Xv6.sysUnlink at hrun
  by_cases hok : argstrOk path
  swap
  · rw [if_pos hok] at hrun
    obtain ⟨rfl, rfl⟩ := Prod.mk.inj (Except.ok.inj hrun)
    exact .refl hs.itable
  rw [if_neg (not_not.mpr hok)] at hrun
  obtain ⟨⟨r₀, s₁⟩, hn, hrun⟩ := Loop.bind_eq_ok.mp hrun
  obtain ⟨hstep₁, -⟩ := namex_ok hs.itable hn
  cases r₀ with
  | none =>
    obtain ⟨rfl, rfl⟩ := Prod.mk.inj (Except.ok.inj hrun)
    exact hstep₁
  | some e =>
    obtain ⟨s₂, hl₂, hrun⟩ := Loop.bind_eq_ok.mp hrun
    obtain ⟨hstep₂, -⟩ := hstep₁.itable.ilock hl₂
    exact (hstep₁.trans hstep₂).trans (unlinkAt_spec hstep₂.itable hrun)

end InodeCalls

/-! ## Counting after one change -/

section Counts

variable {s u : Fs}

theorem fileRefs_setOfile {p : Fin NPROC} {fd : Nat} (hfd : fd < NOFILE) (v : Option Nat)
    (f : Nat) : fileRefs (s.setOfile p fd v) f + (if s.ofile p fd = some f then 1 else 0) =
      fileRefs s f + (if v = some f then 1 else 0) := by
  have hrow := Count.count_update (g := s.ofile p) (P := (· = some f)) (Finset.mem_range.mpr hfd) v
  have hsum := Count.sum_update_add (Finset.mem_univ p) (fun q => fdRefs (s.ofile q) f)
    (fdRefs (Function.update (s.ofile p) fd v) f)
  -- only `p`'s row changed, so the sum over processes changes in one term
  have e : ∀ q, fdRefs ((s.setOfile p fd v).ofile q) f =
      Function.update (fun q => fdRefs (s.ofile q) f) p (fdRefs (Function.update (s.ofile p) fd v) f) q :=
    fun q => Function.apply_update (fun _ row => fdRefs row f) s.ofile p _ q
  simp only [fileRefs, e]
  simp only [fdRefs] at hrow hsum ⊢
  omega

/-- The pipe ends after entry `f` of the file table became `x`. -/
theorem pipeFiles_setFile {f : Nat} {x : File} (hf : f < NFILE)
    (hu : u.file = Function.update s.file f x) (pi : Nat) (w : Bool) :
    pipeFiles u pi w + (if (s.file f).type = .pipe pi w then 1 else 0) =
      pipeFiles s pi w + (if x.type = .pipe pi w then 1 else 0) := by
  unfold pipeFiles
  rw [hu]
  exact Count.count_update_comp (Finset.mem_range.mpr hf) File.type x

/-- The holders of each inode after entry `f` of the file table became `x`. -/
theorem inodeRefs_setFile {f : Nat} {x : File} (hf : f < NFILE)
    (hu : u.file = Function.update s.file f x) (hcwd : u.cwd = s.cwd) (i : Fin NINODE) :
    inodeRefs u i + (if (s.file f).type.ip? = some i then 1 else 0) =
      inodeRefs s i + (if x.type.ip? = some i then 1 else 0) := by
  have := Count.count_update_comp (S := Finset.range NFILE) (g := s.file) (Q := (· = some i))
    (Finset.mem_range.mpr hf) (fun fl => fl.type.ip?) x
  unfold inodeRefs
  rw [hu, hcwd]
  omega

/-- The holders of each inode after `p`'s current directory became `v`. -/
theorem inodeRefs_setCwd {p : Fin NPROC} {v : Option (Fin NINODE)}
    (hu : u.cwd = Function.update s.cwd p v) (hfile : u.file = s.file) (i : Fin NINODE) :
    inodeRefs u i + (if s.cwd p = some i then 1 else 0) =
      inodeRefs s i + (if v = some i then 1 else 0) := by
  have := Count.count_update (S := Finset.univ) (g := s.cwd) (P := (· = some i)) (Finset.mem_univ p) v
  unfold inodeRefs
  rw [hu, hfile]
  omega

end Counts

/-! ## Pipes -/

@[simp] theorem pipeOpen_pipeclose_self (x : Pipe) (w : Bool) :
    pipeOpen (pipeclose x w).1 w = false := by
  cases w <;> rfl

theorem pipeOpen_pipeclose_of_ne {w w' : Bool} (x : Pipe) (h : w' ≠ w) :
    pipeOpen (pipeclose x w).1 w' = pipeOpen x w' := by
  cases w <;> cases w' <;> first | rfl | exact absurd rfl h

@[simp] theorem pipeOpen_pipealloc (junk : Nat → UInt8) (w : Bool) :
    pipeOpen (pipealloc junk) w = true := by
  cases w <;> rfl

/-! ## The operations on files -/

section FileOps

variable {s t u : Fs} {pend pend' : List Nat} {p : Fin NPROC} {f fd : Nat}

@[simp] theorem Fs.setOfile_ofile (v : Option Nat) (q : Fin NPROC) (j : Nat) :
    (s.setOfile p fd v).ofile q j = if q = p ∧ j = fd then v else s.ofile q j := by
  unfold Fs.setOfile
  by_cases hq : q = p
  · subst hq
    by_cases hj : j = fd
    · simp [hj]
    · simp [hj]
  · simp [hq]

@[simp] theorem Fs.setOfile_file (v : Option Nat) : (s.setOfile p fd v).file = s.file := rfl

@[simp] theorem Fs.setOfile_cwd (v : Option Nat) : (s.setOfile p fd v).cwd = s.cwd := rfl

@[simp] theorem Fs.setOfile_pipe (v : Option Nat) : (s.setOfile p fd v).pipe = s.pipe := rfl

@[simp] theorem Fs.setOfile_itable (v : Option Nat) : (s.setOfile p fd v).itable = s.itable := rfl

theorem filealloc_eq_some (ha : filealloc s = some (f, t)) :
    f < NFILE ∧ (s.file f).ref = 0 ∧ t = { s with file := Function.update s.file f ⟨1, .none⟩ } := by
  unfold filealloc at ha
  split at ha
  · cases ha
  · rename_i g hg
    obtain ⟨rfl, rfl⟩ := Prod.mk.inj (Option.some.inj ha)
    have hfree := List.find?_some hg
    exact ⟨List.mem_range.mp (List.mem_of_find?_eq_some hg), by simpa using hfree, rfl⟩

theorem fdalloc_eq_some (ha : fdalloc p s = some fd) : fd < NOFILE ∧ s.ofile p fd = none := by
  unfold fdalloc at ha
  have hnone := List.find?_some ha
  exact ⟨List.mem_range.mp (List.mem_of_find?_eq_some ha), by simpa using hnone⟩

theorem argfd_eq_some {n : Int} (ha : argfd p n s = some f) :
    ¬ (n < 0 ∨ NOFILE ≤ n) ∧ s.ofile p n.toNat = some f := by
  unfold argfd at ha
  split at ha
  · cases ha
  · exact ⟨‹_›, ha⟩

theorem filedup_eq (hf : 1 ≤ (s.file f).ref) :
    filedup f s =
      .ok { s with file := Function.update s.file f { s.file f with ref := (s.file f).ref + 1 } } := by
  unfold filedup
  rw [if_neg (by omega)]

theorem fileclose_shared (h : 1 < (s.file f).ref) :
    fileclose f s =
      .ok { s with file := Function.update s.file f { s.file f with ref := (s.file f).ref - 1 } } := by
  unfold fileclose
  rw [if_neg (by omega), if_pos (by omega)]

theorem fileclose_last_pipe {pi : Nat} {w : Bool} (h : (s.file f).ref = 1)
    (hT : (s.file f).type = .pipe pi w) :
    fileclose f s = .ok { s with
      file := Function.update s.file f ⟨0, .none⟩
      pipe := Function.update s.pipe pi (pipeclose (s.pipe pi) w).1 } := by
  unfold fileclose
  rw [if_neg (by omega), if_neg (by omega)]
  simp only [hT]

theorem fileclose_last_ip {ip : Fin NINODE} (h : (s.file f).ref = 1) (hT : (s.file f).type.ip? = some ip) :
    fileclose f s = .ok (iput ip { s with file := Function.update s.file f ⟨0, .none⟩ }) := by
  unfold fileclose
  rw [if_neg (by omega), if_neg (by omega)]
  cases hT' : (s.file f).type <;> simp only [hT', FileType.ip?, reduceCtorEq] at hT ⊢
  all_goals
    obtain rfl := Option.some.inj hT
    rfl

theorem fileclose_last_none (h : (s.file f).ref = 1) (hT : (s.file f).type = .none) :
    fileclose f s = .ok { s with file := Function.update s.file f ⟨0, .none⟩ } := by
  unfold fileclose
  rw [if_neg (by omega), if_neg (by omega)]
  simp only [hT]

@[simp] theorem iput_cwd (ip : Fin NINODE) : (iput ip s).cwd = s.cwd := iput_same.cwd

/-- `iput` neither reads nor writes the directories of the processes. -/
theorem iput_with_cwd (ip : Fin NINODE) (c : Fin NPROC → Option (Fin NINODE)) :
    iput ip { s with cwd := c } = { iput ip s with cwd := c } := by
  by_cases hfree : (s.itable ip).ref = 1 ∧ (s.itable ip).valid = true ∧ (s.ino ip).nlink = 0
  · rw [iput_of_free (s := { s with cwd := c }) hfree, iput_of_free hfree]
    rfl
  · rw [iput_of_keep (s := { s with cwd := c }) hfree, iput_of_keep hfree]
    rfl

/-- `iput` neither reads nor writes the descriptors. -/
theorem iput_setOfile (ip : Fin NINODE) (v : Option Nat) :
    iput ip (s.setOfile p fd v) = (iput ip s).setOfile p fd v := by
  by_cases hfree : (s.itable ip).ref = 1 ∧ (s.itable ip).valid = true ∧ (s.ino ip).nlink = 0
  · rw [iput_of_free (s := s.setOfile p fd v) hfree, iput_of_free hfree]
    rfl
  · rw [iput_of_keep (s := s.setOfile p fd v) hfree, iput_of_keep hfree]
    rfl

/-- `fileclose` neither reads nor writes the descriptors. -/
theorem fileclose_setOfile (v : Option Nat) :
    fileclose f (s.setOfile p fd v) = (fileclose f s).map (·.setOfile p fd v) := by
  by_cases h0 : (s.file f).ref < 1
  · simp [fileclose, h0]
    rfl
  by_cases h1 : 0 < (s.file f).ref - 1
  · rw [fileclose_shared (s := s.setOfile p fd v) (by simp; omega), fileclose_shared (by omega)]
    rfl
  -- the last reference: freeing the entry commutes with the descriptor, and so does `iput`
  have hlast : (s.file f).ref = 1 := by omega
  cases hT : (s.file f).type with
  | none =>
    rw [fileclose_last_none (s := s.setOfile p fd v) hlast hT, fileclose_last_none hlast hT]
    rfl
  | pipe pi w =>
    rw [fileclose_last_pipe (s := s.setOfile p fd v) hlast hT, fileclose_last_pipe hlast hT]
    rfl
  | inode ip =>
    have hip : (s.file f).type.ip? = some ip := by rw [hT]; rfl
    rw [fileclose_last_ip (s := s.setOfile p fd v) hlast hip, fileclose_last_ip hlast hip]
    exact congrArg Except.ok (iput_setOfile (s := { s with file := Function.update s.file f ⟨0, .none⟩ }) ip v)
  | device ip =>
    have hip : (s.file f).type.ip? = some ip := by rw [hT]; rfl
    rw [fileclose_last_ip (s := s.setOfile p fd v) hlast hip, fileclose_last_ip hlast hip]
    exact congrArg Except.ok (iput_setOfile (s := { s with file := Function.update s.file f ⟨0, .none⟩ }) ip v)

end FileOps

/-! ## The tables across the operations on files -/

/-- A change of the files and the current directories only: the references they hold move
between them and the call. -/
theorem ITable.of_holders {s t : Fs} {h h' : List (Fin NINODE)} (hs : ITable s h)
    (hinode : t.inode = s.inode) (hitable : t.itable = s.itable)
    (hr : ∀ ip, inodeRefs t ip + h'.count ip = inodeRefs s ip + h.count ip)
    (halloc : ∀ ip, 0 < inodeRefs t ip → 0 < inodeRefs s ip ∨ (s.ino ip).type ≠ .free) :
    ITable t h' where
  ref_eq ip := by
    have := hr ip
    have := hs.ref_eq ip
    rw [hitable]
    omega
  live := by
    rw [hitable]
    exact hs.live
  unique := by
    rw [hitable]
    exact hs.unique
  held_alloc ip hpos := by
    rw [Fs.ino_eq, hinode, hitable]
    rcases halloc ip hpos with hpos | hfree
    · exact hs.held_alloc ip hpos
    · exact hfree
  free_valid ip hpos hfree := by
    rw [hitable] at hpos ⊢
    rw [Fs.ino_eq, hinode, hitable] at hfree
    exact hs.free_valid ip hpos hfree

/-- Nothing a call does to files and descriptors touches an inode. -/
theorem DirsKept.of_inode {s t : Fs} (h : t.inode = s.inode) : DirsKept s t :=
  fun _ => .of_eq (by rw [h]) (by rw [h])

/-- A stretch of a call from `s` to `t` after which the call holds the files `pend` and the
inodes `h`: both tables exact at `t`, every directory kept. -/
structure FStep (s t : Fs) (pend : List Nat) (h : List (Fin NINODE)) : Prop where
  ftable : FTable t pend
  itable : ITable t h
  kept : DirsKept s t

namespace FStep

variable {s t u : Fs} {pend pend' : List Nat} {h h' : List (Fin NINODE)}

theorem refl (hf : FTable s pend) (hi : ITable s h) : FStep s s pend h := ⟨hf, hi, .refl s⟩

theorem trans (h₁ : FStep s t pend h) (h₂ : FStep t u pend' h') : FStep s u pend' h' :=
  ⟨h₂.ftable, h₂.itable, h₁.kept.trans h₂.kept⟩

end FStep

theorem IStep.fstep {s t : Fs} {pend : List Nat} {h : List (Fin NINODE)} (hstep : IStep s t h) (hf : FTable s pend) :
    FStep s t pend h :=
  ⟨hf.of_same hstep.same, hstep.itable, hstep.kept⟩

namespace FTable

variable {s u : Fs} {pend pend' : List Nat} {p : Fin NPROC} {f fd : Nat}

/-- Only how many references the call holds to each file matters, not their order. -/
theorem perm (hs : FTable s pend) (hp : pend.Perm pend') : FTable s pend' :=
  { hs with
    ref_eq := fun g hg => by rw [← hp.count_eq]; exact hs.ref_eq g hg
    pend_lt := fun g hg => hs.pend_lt g (hp.mem_iff.mpr hg) }

/-- The frame of the file table: with the descriptors and the directories as they were, the
table is exact again when each entry's count moved with the call's references and the types and
the pipes agree. -/
theorem of_files (hs : FTable s pend) (hofile : u.ofile = s.ofile) (hcwd : u.cwd = s.cwd)
    (hlt : ∀ g ∈ pend', g < NFILE)
    (href : ∀ g < NFILE, (u.file g).ref + pend.count g = (s.file g).ref + pend'.count g)
    (hnone : ∀ g < NFILE, (u.file g).type = .none → fileRefs s g = 0)
    (hfree : ∀ g < NFILE, (u.file g).ref = 0 → (u.file g).type = .none)
    (hends : ∀ pi w, pipeFiles u pi w = if pipeOpen (u.pipe pi) w then 1 else 0)
    (hnew : ∀ pi w, u.npipe ≤ pi → pipeOpen (u.pipe pi) w = false) : FTable u pend' := by
  have hrefs : fileRefs u = fileRefs s := by
    funext g
    rw [fileRefs, fileRefs, hofile]
  refine ⟨?_, ?_, fun g hg => ?_, fun g hg hT => ?_, hfree, hlt, hends, hnew⟩
  · rw [hofile]
    exact hs.ofile_lt
  · rw [hofile, hcwd]
    exact hs.dead
  · have := href g hg
    have := hs.ref_eq g hg
    rw [hrefs]
    omega
  · rw [hrefs]
    exact hnone g hg hT

/-- Entry `f` becomes `x`, and the pipe end it is, if any, stays. -/
theorem setFile {x : File} (hs : FTable s pend) (hf : f < NFILE)
    (hu : u = { s with file := Function.update s.file f x })
    (hpend : ∀ g, g ≠ f → pend'.count g = pend.count g) (hlt : ∀ g ∈ pend', g < NFILE)
    (href : x.ref + pend.count f = (s.file f).ref + pend'.count f)
    (hnone : x.type = .none → fileRefs s f = 0) (hfree : x.ref = 0 → x.type = .none)
    (hpipe : ∀ pi w, x.type = .pipe pi w ↔ (s.file f).type = .pipe pi w) : FTable u pend' := by
  subst hu
  refine hs.of_files rfl rfl hlt (fun g hg => ?_) (fun g hg hT => ?_) (fun g hg h0 => ?_)
    (fun pi w => ?_) hs.pipe_new
  · by_cases hgf : g = f
    · subst hgf
      simpa using href
    · simp only [Function.update_of_ne hgf, hpend g hgf]
  · by_cases hgf : g = f
    · subst hgf
      exact hnone (by simpa using hT)
    · exact hs.none_unheld g hg (by simpa [hgf] using hT)
  · by_cases hgf : g = f
    · subst hgf
      simpa using hfree (by simpa using h0)
    · simpa [hgf] using hs.free_none g hg (by simpa [hgf] using h0)
  · -- the same pipe end before and after, so the same count
    have hcount := pipeFiles_setFile (u := { s with file := Function.update s.file f x }) hf rfl pi w
    simp only [hpipe pi w] at hcount
    have := hs.pipe_ends pi w
    dsimp only
    omega

/-- Descriptor `fd` of a live process changes from what it held to `v`, and the call's
references change to match. -/
theorem setOfile (hs : FTable s pend) (hfd : fd < NOFILE) (hcwd : s.cwd p ≠ none) {v : Option Nat}
    (hv : ∀ g, v = some g → g < NFILE ∧ (s.file g).type ≠ .none)
    (hpend : ∀ g, pend'.count g + (if v = some g then 1 else 0) =
      pend.count g + (if s.ofile p fd = some g then 1 else 0))
    (hlt : ∀ g ∈ pend', g < NFILE) : FTable (s.setOfile p fd v) pend' := by
  refine ⟨fun q j g hg => ?_, fun q j hq => ?_, fun g hg => ?_, fun g hg hT => ?_, hs.free_none,
    hlt, hs.pipe_ends, hs.pipe_new⟩
  · rw [Fs.setOfile_ofile] at hg
    split_ifs at hg with hqj
    · exact ⟨hqj.2 ▸ hfd, (hv g hg).1⟩
    · exact hs.ofile_lt q j g hg
  · rw [Fs.setOfile_ofile]
    split_ifs with hqj
    · exact absurd (hqj.1 ▸ hq) hcwd
    · exact hs.dead q j hq
  · have := fileRefs_setOfile (s := s) (p := p) hfd v g
    have := hpend g
    have := hs.ref_eq g hg
    simp only [Fs.setOfile_file]
    omega
  · -- an `FD_NONE` file was held by no descriptor, and `v` is not one
    have hcount := fileRefs_setOfile (s := s) (p := p) hfd v g
    have hzero := hs.none_unheld g hg hT
    have hv' : (if v = some g then 1 else 0) = 0 := if_neg fun h => (hv g h).2 hT
    omega

/-- A descriptor gives the file it holds to the call. -/
theorem take (hs : FTable s pend) (hfd : s.ofile p fd = some f) :
    FTable (s.setOfile p fd none) (f :: pend) := by
  have hcwd : s.cwd p ≠ none := fun h => by rw [hs.dead p fd h] at hfd; cases hfd
  obtain ⟨hlt, hf⟩ := hs.ofile_lt p fd f hfd
  refine hs.setOfile hlt hcwd (by simp) (fun g => ?_) ?_
  · by_cases hg : f = g
    · subst hg
      simp [hfd]
    · simp [hfd, hg]
  · intro g hg
    rcases List.mem_cons.mp hg with rfl | hg
    · exact hf
    · exact hs.pend_lt g hg

/-- The call gives a file it holds to a free descriptor of a live process. -/
theorem give (hs : FTable s (f :: pend)) (hfd : fd < NOFILE) (hcwd : s.cwd p ≠ none)
    (hfree : s.ofile p fd = none) (htype : (s.file f).type ≠ .none) :
    FTable (s.setOfile p fd (some f)) pend := by
  have hf := hs.pend_lt f List.mem_cons_self
  refine hs.setOfile hfd hcwd (fun g hg => ?_) (fun g => ?_) (fun g hg => hs.pend_lt g (.tail _ hg))
  · cases hg
    exact ⟨hf, htype⟩
  · by_cases hg : f = g
    · subst hg
      simp [hfree]
    · simp [hfree, hg]

end FTable

/-! ## `filealloc`, `filedup`, `fileclose` -/

section FileOps

variable {s t : Fs} {pend : List Nat} {h : List (Fin NINODE)} {f : Nat} {ip : Fin NINODE}

/-- Only which inode each file holds, and the current directories, count for the inodes. -/
theorem inodeRefs_congr {u : Fs} (hip : ∀ g < NFILE, (u.file g).type.ip? = (s.file g).type.ip?)
    (hcwd : u.cwd = s.cwd) : inodeRefs u = inodeRefs s := by
  funext i
  unfold inodeRefs
  rw [hcwd, Count.count_congr (fun g hg => by rw [hip g (Finset.mem_range.mp hg)])]

/-- A change of the files that keeps the inode each holds. -/
theorem ITable.of_ips {u : Fs} (hi : ITable s h) (hinode : u.inode = s.inode)
    (hitable : u.itable = s.itable) (hip : ∀ g < NFILE, (u.file g).type.ip? = (s.file g).type.ip?)
    (hcwd : u.cwd = s.cwd) : ITable u h := by
  have hrefs := inodeRefs_congr hip hcwd
  refine hi.of_holders hinode hitable (fun j => by rw [hrefs]) (fun j hpos => .inl ?_)
  rwa [hrefs] at hpos

/-- A change of one file that keeps the inode it holds. -/
theorem ITable.setFile_keep {x : File} (hi : ITable s h) (hip : x.type.ip? = (s.file f).type.ip?) :
    ITable { s with file := Function.update s.file f x } h := by
  refine hi.of_ips rfl rfl (fun g _ => ?_) rfl
  by_cases hgf : g = f
  · subst hgf
    simpa using hip
  · simp [hgf]

/-- The descriptors are no holders of inodes. -/
theorem ITable.setOfile (hi : ITable s h) (p : Fin NPROC) (fd : Nat) (v : Option Nat) :
    ITable (s.setOfile p fd v) h :=
  hi.of_ips rfl rfl (fun _ _ => rfl) rfl

/-- Freeing a file that holds inode `ip` hands its reference to the call. -/
theorem ITable.release (hi : ITable s h) (hf : f < NFILE) (hip : (s.file f).type.ip? = some ip) :
    ITable { s with file := Function.update s.file f ⟨0, .none⟩ } (ip :: h) := by
  refine hi.of_holders rfl rfl (fun j => ?_) (fun j hpos => .inl ?_)
  · have := inodeRefs_setFile (u := { s with file := Function.update s.file f ⟨0, .none⟩ }) hf rfl
      rfl j
    rw [hip] at this
    by_cases hj : ip = j
    · subst hj
      simp only [if_true, List.count_cons_self] at this ⊢
      simp [FileType.ip?] at this
      omega
    · simp only [Option.some.injEq, hj, if_false, List.count_cons_of_ne hj] at this ⊢
      simp [FileType.ip?] at this
      omega
  · have := inodeRefs_setFile (u := { s with file := Function.update s.file f ⟨0, .none⟩ }) hf rfl
      rfl j
    simp [FileType.ip?] at this
    omega

theorem FTable.cons_lt (hs : FTable s pend) (hf : f < NFILE) : ∀ g ∈ f :: pend, g < NFILE := by
  intro g hg
  rcases List.mem_cons.mp hg with rfl | hg
  · exact hf
  · exact hs.pend_lt g hg

theorem count_cons_of_ne' {g : Nat} (hg : g ≠ f) : (f :: pend).count g = pend.count g :=
  List.count_cons_of_ne (Ne.symm hg)

/-- `filealloc` pushes the file it takes. -/
theorem FTable.filealloc (hs : FTable s pend) (hi : ITable s h)
    (ha : Xv6.filealloc s = some (f, t)) : FStep s t (f :: pend) h := by
  obtain ⟨hf, hfree, rfl⟩ := filealloc_eq_some ha
  have hnone := hs.free_none f hf hfree
  have hzero : fileRefs s f = 0 := by
    have := hs.ref_eq f hf
    omega
  refine ⟨hs.setFile hf rfl (fun g hg => count_cons_of_ne' hg) (hs.cons_lt hf) ?_ (fun _ => hzero)
    (fun _ => rfl) (fun pi w => ?_), hi.setFile_keep ?_, .of_inode rfl⟩
  · simp only [hfree, List.count_cons_self]
    omega
  · simp [hnone]
  · simp [hnone, FileType.ip?]

/-- `filedup` of a file a descriptor or the call holds succeeds and pushes it again. -/
theorem FTable.filedup (hs : FTable s pend) (hi : ITable s h) (hf : f < NFILE)
    (hheld : 0 < fileRefs s f ∨ f ∈ pend) :
    ∃ t, Xv6.filedup f s = .ok t ∧ FStep s t (f :: pend) h ∧ t.ofile = s.ofile ∧ t.cwd = s.cwd := by
  have hone := hs.one_le_ref hf hheld
  refine ⟨_, filedup_eq hone, ⟨hs.setFile hf rfl (fun g hg => count_cons_of_ne' hg) (hs.cons_lt hf)
    ?_ (hs.none_unheld f hf) (by simp) (fun _ _ => Iff.rfl), hi.setFile_keep rfl,
    .of_inode rfl⟩, rfl, rfl⟩
  simp only [List.count_cons_self]
  omega

/-- The last file of a pipe's end freed, and that end closed. -/
theorem FTable.closePipe {pi : Nat} {w : Bool} (hs : FTable s (f :: pend)) (hf : f < NFILE)
    (hT : (s.file f).type = .pipe pi w) (h1 : (s.file f).ref = 1) :
    FTable { s with
      file := Function.update s.file f ⟨0, .none⟩
      pipe := Function.update s.pipe pi (pipeclose (s.pipe pi) w).1 } pend := by
  have hlast := hs.ref_eq f hf
  rw [List.count_cons_self] at hlast
  -- `f` is the one file of that end, so the end was open
  have hone : 1 ≤ pipeFiles s pi w := Count.one_le_count (Finset.mem_range.mpr hf) hT
  have hopen : pipeOpen (s.pipe pi) w = true := by
    have := hs.pipe_ends pi w
    by_contra hc
    simp only [hc, if_false] at this
    omega
  have hends := hs.pipe_ends pi w
  rw [hopen, if_pos rfl] at hends
  refine hs.of_files rfl rfl (fun g hg => hs.pend_lt g (.tail _ hg)) (fun g hg => ?_)
    (fun g hg hN => ?_) (fun g hg h0 => ?_) (fun pi' w' => ?_) (fun pi' w' hnew => ?_)
  · by_cases hgf : g = f
    · subst hgf
      simp only [Function.update_self, List.count_cons_self]
      omega
    · simp only [Function.update_of_ne hgf, count_cons_of_ne' hgf]
  · by_cases hgf : g = f
    · subst hgf
      omega
    · exact hs.none_unheld g hg (by simpa [hgf] using hN)
  · by_cases hgf : g = f
    · subst hgf
      simp
    · simpa [hgf] using hs.free_none g hg (by simpa [hgf] using h0)
  · have hcount := pipeFiles_setFile (s := s)
      (u := { s with
        file := Function.update s.file f ⟨0, .none⟩
        pipe := Function.update s.pipe pi (pipeclose (s.pipe pi) w).1 }) hf rfl pi' w'
    have hold := hs.pipe_ends pi' w'
    have hnew0 : (if (⟨0, .none⟩ : File).type = .pipe pi' w' then 1 else 0) = 0 := if_neg (by simp)
    rw [hT, hnew0] at hcount
    dsimp only
    by_cases hpw : pi' = pi ∧ w' = w
    · -- the end that closed
      obtain ⟨rfl, rfl⟩ := hpw
      rw [if_pos rfl] at hcount
      simp only [Function.update_self, pipeOpen_pipeclose_self, Bool.false_eq_true, if_false]
      omega
    · rw [if_neg fun he => hpw (by cases he; exact ⟨rfl, rfl⟩)] at hcount
      have hopen' : pipeOpen (Function.update s.pipe pi (pipeclose (s.pipe pi) w).1 pi') w' =
          pipeOpen (s.pipe pi') w' := by
        by_cases hpi : pi' = pi
        · subst hpi
          rw [Function.update_self, pipeOpen_pipeclose_of_ne _ fun hw => hpw ⟨rfl, hw⟩]
        · rw [Function.update_of_ne hpi]
      simp only [hopen']
      omega
  · -- the pipe that closed was allocated, so a new index is another pipe
    have hlt : pi < s.npipe := by
      by_contra hc
      rw [hs.pipe_new pi w (by omega)] at hopen
      cases hopen
    have hpi : pi' ≠ pi := by
      intro he
      dsimp only at hnew
      omega
    dsimp only at hnew ⊢
    rw [Function.update_of_ne hpi]
    exact hs.pipe_new pi' w' hnew

/-- `fileclose` of a file the call holds succeeds and pops it: the last reference frees the
entry and closes the pipe's end or gives the inode back, any other one only drops the count. -/
theorem FTable.fileclose (hs : FTable s (f :: pend)) (hi : ITable s h) :
    ∃ t, Xv6.fileclose f s = .ok t ∧ FStep s t pend h ∧ t.ofile = s.ofile ∧ t.cwd = s.cwd := by
  have hf := hs.pend_lt f List.mem_cons_self
  have href := hs.ref_eq f hf
  rw [List.count_cons_self] at href
  have hlt : ∀ g ∈ pend, g < NFILE := fun g hg => hs.pend_lt g (.tail _ hg)
  have hpend : ∀ g, g ≠ f → pend.count g = (f :: pend).count g :=
    fun g hg => (count_cons_of_ne' hg).symm
  by_cases hshared : 0 < (s.file f).ref - 1
  · -- another reference remains: only the count drops
    refine ⟨{ s with
        file := Function.update s.file f { s.file f with ref := (s.file f).ref - 1 } }, ?_,
      ⟨hs.setFile hf rfl hpend hlt ?_ (hs.none_unheld f hf) (by simp; omega)
      (fun _ _ => Iff.rfl), hi.setFile_keep rfl, .of_inode rfl⟩, rfl, rfl⟩
    · exact fileclose_shared (by omega)
    · simp only [List.count_cons_self]
      omega
  · have h1 : (s.file f).ref = 1 := by omega
    have hzero : fileRefs s f = 0 := by omega
    -- the entry freed, before the pipe or the inode is let go
    have hfree : (∀ pi w, (s.file f).type ≠ .pipe pi w) →
        FTable { s with file := Function.update s.file f ⟨0, .none⟩ } pend := fun hnp =>
      hs.setFile hf rfl hpend hlt (by simp only [List.count_cons_self]; omega) (fun _ => hzero)
        (fun _ => rfl) (fun pi w => iff_of_false (by simp) (hnp pi w))
    -- an inode or a device: the reference goes back with `iput`
    have hinode : ∀ ip, (s.file f).type.ip? = some ip →
        FStep s (iput ip { s with file := Function.update s.file f ⟨0, .none⟩ }) pend h := by
      intro ip hip
      have hft := hfree fun pi w hT => by rw [hT] at hip; cases hip
      have hput := (hi.release hf hip).iput_head
      have hrel : FStep s _ pend (ip :: h) := ⟨hft, hi.release hf hip, .of_inode rfl⟩
      exact hrel.trans (hput.fstep hft)
    cases hT : (s.file f).type with
    | none =>
      exact ⟨_, fileclose_last_none h1 hT, ⟨hfree (by simp [hT]),
        hi.setFile_keep (by simp [hT, FileType.ip?]), .of_inode rfl⟩, rfl, rfl⟩
    | pipe pi w =>
      refine ⟨_, fileclose_last_pipe h1 hT, ⟨hs.closePipe hf hT h1, ?_, .of_inode rfl⟩, rfl, rfl⟩
      exact (hi.setFile_keep (by simp [hT, FileType.ip?])).of_ips rfl rfl (fun _ _ => rfl) rfl
    | inode ip =>
      have hip : (s.file f).type.ip? = some ip := by rw [hT]; rfl
      exact ⟨_, fileclose_last_ip h1 hip, hinode ip hip, iput_same.ofile, iput_same.cwd⟩
    | device ip =>
      have hip : (s.file f).type.ip? = some ip := by rw [hT]; rfl
      exact ⟨_, fileclose_last_ip h1 hip, hinode ip hip, iput_same.ofile, iput_same.cwd⟩

/-- Two fresh files become the ends of the next pipe. -/
theorem FTable.openPipe {f0 f1 : Nat} (hs : FTable s pend) (hf0 : f0 < NFILE) (hf1 : f1 < NFILE)
    (hne : f0 ≠ f1) (h0 : s.file f0 = ⟨1, .none⟩) (h1 : s.file f1 = ⟨1, .none⟩) :
    FTable { s with
      file := Function.update (Function.update s.file f0 ⟨1, .pipe s.npipe false⟩) f1
        ⟨1, .pipe s.npipe true⟩
      pipe := Function.update s.pipe s.npipe (Xv6.pipealloc fun _ => 5)
      npipe := s.npipe + 1 } pend := by
  -- the file table after the first end only, and after both
  let u : Fs := { s with file := Function.update s.file f0 ⟨1, .pipe s.npipe false⟩ }
  let t : Fs := { s with
    file := Function.update (Function.update s.file f0 ⟨1, .pipe s.npipe false⟩) f1
      ⟨1, .pipe s.npipe true⟩
    pipe := Function.update s.pipe s.npipe (Xv6.pipealloc fun _ => 5)
    npipe := s.npipe + 1 }
  have hfile : ∀ g, g ≠ f0 → g ≠ f1 → (Function.update (Function.update s.file f0
      ⟨1, .pipe s.npipe false⟩) f1 ⟨1, .pipe s.npipe true⟩ g) = s.file g := fun g hg0 hg1 => by
    rw [Function.update_of_ne hg1, Function.update_of_ne hg0]
  refine hs.of_files rfl rfl hs.pend_lt (fun g hg => ?_) (fun g hg hN => ?_) (fun g hg h0' => ?_)
    (fun pi w => ?_) (fun pi w hnew => ?_)
  · by_cases hg1 : g = f1
    · subst hg1
      simp [h1]
    · by_cases hg0 : g = f0
      · subst hg0
        simp [hg1, h0]
      · simp only [hfile g hg0 hg1]
  · by_cases hg1 : g = f1
    · subst hg1
      simp at hN
    · by_cases hg0 : g = f0
      · subst hg0
        simp [hg1] at hN
      · exact hs.none_unheld g hg (by simpa [hfile g hg0 hg1] using hN)
  · by_cases hg1 : g = f1
    · subst hg1
      simp at h0'
    · by_cases hg0 : g = f0
      · subst hg0
        simp [hg1] at h0'
      · simpa [hfile g hg0 hg1] using hs.free_none g hg (by simpa [hfile g hg0 hg1] using h0')
  · -- each end of the new pipe gets one file; every other pipe keeps its files
    have hc₀ := pipeFiles_setFile (s := s) (u := u) hf0 rfl pi w
    have hc₁ := pipeFiles_setFile (s := u) (u := t) hf1 rfl pi w
    have hold := hs.pipe_ends pi w
    show pipeFiles t pi w = if pipeOpen (t.pipe pi) w then 1 else 0
    simp only [h0, h1, u, t, Function.update_of_ne (Ne.symm hne), reduceCtorEq, if_false,
      add_zero, FileType.pipe.injEq] at hc₀ hc₁ ⊢
    by_cases hpi : s.npipe = pi
    · subst hpi
      have hclosed := hs.pipe_new s.npipe w le_rfl
      simp only [hclosed, Bool.false_eq_true, if_false] at hold
      simp only [Function.update_self, pipeOpen_pipealloc, if_true]
      cases w <;> simp at hc₀ hc₁ <;> omega
    · simp only [hpi, false_and, if_false, add_zero, Function.update_of_ne (Ne.symm hpi)] at hc₀ hc₁ ⊢
      omega
  · dsimp only at hnew ⊢
    rw [Function.update_of_ne (by omega)]
    exact hs.pipe_new pi w (by omega)

/-- `pipealloc` succeeds, pushing the two ends of a new pipe, or gives back what it took. -/
theorem FTable.pipealloc {kallocOk : Bool} {r : Option (Nat × Nat)} (hs : FTable s [])
    (hi : ITable s h)
    (hrun : s.pipealloc kallocOk = .ok (r, t)) :
    t.ofile = s.ofile ∧ t.cwd = s.cwd ∧ (r = none → FStep s t [] h) ∧
      ∀ f0 f1, r = some (f0, f1) → FStep s t [f1, f0] h ∧ (t.file f0).type ≠ .none ∧
        (t.file f1).type ≠ .none := by
  unfold Fs.pipealloc at hrun
  cases ha₀ : Xv6.filealloc s with
  | none =>
    rw [ha₀] at hrun
    obtain ⟨rfl, rfl⟩ := Prod.mk.inj (Except.ok.inj hrun)
    exact ⟨rfl, rfl, fun _ => .refl hs hi, fun _ _ => nofun⟩
  | some a₀ =>
    obtain ⟨f0, s₁⟩ := a₀
    rw [ha₀] at hrun
    have hst₁ := hs.filealloc hi ha₀
    obtain ⟨hf0, -, hs₁⟩ := filealloc_eq_some ha₀
    dsimp only at hrun
    cases ha₁ : Xv6.filealloc s₁ with
    | none =>
      rw [ha₁] at hrun
      obtain ⟨s₂, hc, hrun⟩ := Loop.bind_eq_ok.mp hrun
      obtain ⟨rfl, rfl⟩ := Prod.mk.inj (Except.ok.inj hrun)
      obtain ⟨u, hu, hst₂, hofile, hcwd⟩ := hst₁.ftable.fileclose hst₁.itable
      rw [hc] at hu
      cases hu
      refine ⟨?_, ?_, fun _ => hst₁.trans hst₂, fun _ _ => nofun⟩
      · rw [hofile, hs₁]
      · rw [hcwd, hs₁]
    | some a₁ =>
      obtain ⟨f1, s₂⟩ := a₁
      rw [ha₁] at hrun
      have hst₂ := hst₁.trans (hst₁.ftable.filealloc hst₁.itable ha₁)
      obtain ⟨hf1, hfree₁, hs₂⟩ := filealloc_eq_some ha₁
      have hne : f0 ≠ f1 := by
        rintro rfl
        rw [hs₁] at hfree₁
        simp at hfree₁
      dsimp only at hrun
      cases kallocOk with
      | false =>
        -- no page for the pipe: both files go back
        obtain ⟨s₃, hc₃, hrun⟩ := Loop.bind_eq_ok.mp hrun
        obtain ⟨s₄, hc₄, hrun⟩ := Loop.bind_eq_ok.mp hrun
        obtain ⟨rfl, rfl⟩ := Prod.mk.inj (Except.ok.inj hrun)
        obtain ⟨u₃, hu₃, hst₃, hofile₃, hcwd₃⟩ :=
          (hst₂.ftable.perm (List.Perm.swap f0 f1 [])).fileclose hst₂.itable
        rw [hc₃] at hu₃
        cases hu₃
        obtain ⟨u₄, hu₄, hst₄, hofile₄, hcwd₄⟩ := hst₃.ftable.fileclose hst₃.itable
        rw [hc₄] at hu₄
        cases hu₄
        refine ⟨?_, ?_, fun _ => (hst₂.trans hst₃).trans hst₄, fun _ _ => nofun⟩
        · rw [hofile₄, hofile₃, hs₂, hs₁]
        · rw [hcwd₄, hcwd₃, hs₂, hs₁]
      | true =>
        obtain ⟨rfl, rfl⟩ := Prod.mk.inj (Except.ok.inj hrun)
        subst hs₁ hs₂
        have h0 : (Function.update (Function.update s.file f0 ⟨1, .none⟩) f1 ⟨1, .none⟩) f0 =
            ⟨1, .none⟩ := by
          rw [Function.update_of_ne hne, Function.update_self]
        refine ⟨rfl, rfl, nofun, fun g0 g1 hg => ?_⟩
        obtain ⟨rfl, rfl⟩ := Prod.mk.inj (Option.some.inj hg)
        refine ⟨⟨hst₂.ftable.openPipe hf0 hf1 hne h0 (Function.update_self ..), ?_,
          hst₂.kept.trans (.of_inode rfl)⟩, ?_, ?_⟩
        · refine hst₂.itable.of_ips rfl rfl (fun g _ => ?_) rfl
          by_cases hg1 : g = f1
          · subst hg1
            simp [FileType.ip?]
          · by_cases hg0 : g = f0
            · subst hg0
              simp [hg1, FileType.ip?]
            · simp [hg1, hg0]
        · simp [Function.update_of_ne hne]
        · simp

end FileOps

/-! ## Descriptors and current directories of processes -/

section Procs

variable {s t u : Fs} {pend pend' : List Nat} {h h' : List (Fin NINODE)} {p q : Fin NPROC}
  {f fd : Nat} {ip : Fin NINODE}

theorem fdRefs_le_fileRefs (p : Fin NPROC) (f : Nat) : fdRefs (s.ofile p) f ≤ fileRefs s f := by
  unfold fileRefs
  exact Finset.single_le_sum (f := fun q => fdRefs (s.ofile q) f) (fun _ _ => Nat.zero_le _)
    (Finset.mem_univ p)

/-- A descriptor that holds `f` is counted. -/
theorem one_le_fileRefs (hfd : fd < NOFILE) (h : s.ofile p fd = some f) : 1 ≤ fileRefs s f :=
  calc 1 ≤ fdRefs (s.ofile p) f := Count.one_le_count (Finset.mem_range.mpr hfd) h
    _ ≤ fileRefs s f := fdRefs_le_fileRefs p f

/-- The descriptors after process `q`'s whole row became `row`. -/
theorem fileRefs_setRow {row : Nat → Option Nat} (hu : u.ofile = Function.update s.ofile q row)
    (g : Nat) : fileRefs u g + fdRefs (s.ofile q) g = fileRefs s g + fdRefs row g := by
  have e : ∀ q', fdRefs (u.ofile q') g =
      Function.update (fun q' => fdRefs (s.ofile q') g) q (fdRefs row g) q' := fun q' => by
    rw [hu]
    exact Function.apply_update (fun _ row => fdRefs row g) s.ofile q row q'
  simp only [fileRefs, e]
  exact Count.sum_update_add (Finset.mem_univ q) _ _

/-- A live process holds a descriptor; a dead one none. -/
theorem FTable.cwd_ne (hs : FTable s pend) (h : s.ofile p fd = some f) : s.cwd p ≠ none :=
  fun h0 => by rw [hs.dead p fd h0] at h; cases h

/-- The current directories change, and a process left without one has no descriptor. -/
theorem FTable.of_cwd (hs : FTable s pend) (hfile : u.file = s.file) (hofile : u.ofile = s.ofile)
    (hpipe : u.pipe = s.pipe) (hnpipe : u.npipe = s.npipe)
    (hdead : ∀ q fd, u.cwd q = none → s.ofile q fd = none) : FTable u pend := by
  have hrefs : fileRefs u = fileRefs s := by
    funext g
    rw [fileRefs, fileRefs, hofile]
  have hpipes : pipeFiles u = pipeFiles s := by
    funext pi w
    rw [pipeFiles, pipeFiles, hfile]
  refine ⟨?_, fun q fd hq => ?_, ?_, ?_, ?_, hs.pend_lt, ?_, ?_⟩ <;>
    simp only [hfile, hofile, hpipe, hnpipe, hrefs, hpipes]
  · exact hs.ofile_lt
  · exact hdead q fd hq
  · exact hs.ref_eq
  · exact hs.none_unheld
  · exact hs.free_none
  · exact hs.pipe_ends
  · exact hs.pipe_new

/-- Process `q`, which had no directory, gets a directory `v` and a copy of `p`'s descriptors,
whose references the call held. -/
theorem FTable.copyRow {v : Option (Fin NINODE)} (hs : FTable s pend) (hq : s.cwd q = none)
    (hv : v ≠ none) (hpend : ∀ g, pend.count g = fdRefs (s.ofile p) g + pend'.count g)
    (hlt : ∀ g ∈ pend', g < NFILE)
    (hu : u = { s with
      cwd := Function.update s.cwd q v
      ofile := Function.update s.ofile q (s.ofile p) }) : FTable u pend' := by
  subst hu
  -- the row of `q` was empty
  have hempty : ∀ g, fdRefs (s.ofile q) g = 0 := fun g =>
    Count.count_eq_zero.mpr fun j _ => by simp [hs.dead q j hq]
  refine ⟨fun q' j g hg => ?_, fun q' j hq' => ?_, fun g hg => ?_, fun g hg hN => ?_, hs.free_none,
    hlt, hs.pipe_ends, hs.pipe_new⟩
  · by_cases hqq : q' = q
    · subst hqq
      simp only [Function.update_self] at hg
      exact hs.ofile_lt p j g hg
    · simp only [Function.update_of_ne hqq] at hg
      exact hs.ofile_lt q' j g hg
  · by_cases hqq : q' = q
    · subst hqq
      simp only [Function.update_self] at hq'
      exact absurd hq' hv
    · simp only [Function.update_of_ne hqq] at hq' ⊢
      exact hs.dead q' j hq'
  · have := fileRefs_setRow (s := s) (u := { s with
      cwd := Function.update s.cwd q v
      ofile := Function.update s.ofile q (s.ofile p) }) rfl g
    have := hs.ref_eq g hg
    have := hpend g
    have := hempty g
    dsimp only
    omega
  · have hcount := fileRefs_setRow (s := s) (u := { s with
      cwd := Function.update s.cwd q v
      ofile := Function.update s.ofile q (s.ofile p) }) rfl g
    have := hs.none_unheld g hg hN
    have := fdRefs_le_fileRefs (s := s) p g
    omega

/-- Process `q`'s current directory becomes `v`: the reference moves between the directory and
the call. -/
theorem ITable.setCwd {v : Option (Fin NINODE)} (hi : ITable s h) (hinode : u.inode = s.inode)
    (hitable : u.itable = s.itable) (hfile : u.file = s.file)
    (hcwd : u.cwd = Function.update s.cwd q v)
    (hh : ∀ j, h'.count j + (if v = some j then 1 else 0) =
      h.count j + (if s.cwd q = some j then 1 else 0))
    (halloc : ∀ j, v = some j → (s.ino j).type ≠ .free) : ITable u h' := by
  refine hi.of_holders hinode hitable (fun j => ?_) (fun j hpos => ?_)
  · have := inodeRefs_setCwd hcwd hfile j
    have := hh j
    omega
  · have hcount := inodeRefs_setCwd hcwd hfile j
    by_cases hv : v = some j
    · exact .inr (halloc j hv)
    · rw [if_neg hv] at hcount
      exact .inl (by omega)

/-- A free file the call holds takes over the call's reference to `ip`. -/
theorem ITable.attach {x : File} (hi : ITable s (ip :: h)) (hf : f < NFILE)
    (hnone : (s.file f).type.ip? = none) (hx : x.type.ip? = some ip)
    (halloc : (s.ino ip).type ≠ .free) :
    ITable { s with file := Function.update s.file f x } h := by
  refine hi.of_holders rfl rfl (fun j => ?_) (fun j hpos => ?_)
  · have := inodeRefs_setFile (u := { s with file := Function.update s.file f x }) hf rfl rfl j
    rw [hnone, hx] at this
    by_cases hj : ip = j
    · subst hj
      simp only [if_true, List.count_cons_self] at this ⊢
      simp at this
      omega
    · simp only [Option.some.injEq, hj, if_false, List.count_cons_of_ne hj] at this ⊢
      simp at this
      omega
  · have := inodeRefs_setFile (u := { s with file := Function.update s.file f x }) hf rfl rfl j
    rw [hnone, hx] at this
    by_cases hj : ip = j
    · subst hj
      exact .inr halloc
    · simp only [Option.some.injEq, hj, if_false] at this
      simp at this
      exact .inl (by omega)

/-- `p` gives a descriptor's file to the call. -/
theorem FStep.take (hs : FTable s pend) (hi : ITable s h) (hfd : s.ofile p fd = some f) :
    FStep s (s.setOfile p fd none) (f :: pend) h :=
  ⟨hs.take hfd, hi.setOfile p fd none, .of_inode rfl⟩

/-- The call gives a file to a free descriptor of `p`. -/
theorem FStep.give (hs : FTable s (f :: pend)) (hi : ITable s h) (hfd : fd < NOFILE)
    (hcwd : s.cwd p ≠ none) (hfree : s.ofile p fd = none) (htype : (s.file f).type ≠ .none) :
    FStep s (s.setOfile p fd (some f)) pend h :=
  ⟨hs.give hfd hcwd hfree htype, hi.setOfile p fd (some f), .of_inode rfl⟩

/-- A stretch with nothing held at its end is a whole call. -/
theorem FStep.fsInv (h : FStep s t [] []) : FsInv t ∧ DirsKept s t := ⟨⟨h.ftable, h.itable⟩, h.kept⟩

end Procs

/-! ## The calls on descriptors and directories -/

section Calls

variable {s t : Fs} {p : Fin NPROC} {r : Int}

/-- `sys_close`: the descriptor's reference goes to `fileclose`. -/
theorem FsInv.sysClose {fd : Int} (hs : FsInv s) (hrun : Xv6.sysClose p fd s = .ok (t, r)) :
    FsInv t ∧ DirsKept s t := by
  unfold Xv6.sysClose at hrun
  split_ifs at hrun with hfd
  · obtain ⟨rfl, rfl⟩ := Prod.mk.inj (Except.ok.inj hrun)
    exact ⟨hs, .refl s⟩
  cases hf : s.ofile p fd.toNat with
  | none =>
    rw [hf] at hrun
    obtain ⟨rfl, rfl⟩ := Prod.mk.inj (Except.ok.inj hrun)
    exact ⟨hs, .refl s⟩
  | some f =>
    rw [hf] at hrun
    obtain ⟨u, hc, hrun⟩ := Loop.bind_eq_ok.mp hrun
    obtain ⟨rfl, rfl⟩ := Prod.mk.inj (Except.ok.inj hrun)
    have htake := FStep.take hs.ftable hs.itable hf
    obtain ⟨u', hc', hclose, -, -⟩ := htake.ftable.fileclose htake.itable
    obtain rfl : u' = u := Except.ok.inj (hc'.symm.trans hc)
    exact (htake.trans hclose).fsInv

/-- `sys_dup`: `filedup` makes the reference the new descriptor takes. -/
theorem FsInv.sysDup {fd : Int} (hs : FsInv s) (hrun : Xv6.sysDup p fd s = .ok (t, r)) :
    FsInv t ∧ DirsKept s t := by
  unfold Xv6.sysDup at hrun
  cases ha : argfd p fd s with
  | none =>
    rw [ha] at hrun
    obtain ⟨rfl, rfl⟩ := Prod.mk.inj (Except.ok.inj hrun)
    exact ⟨hs, .refl s⟩
  | some f =>
    rw [ha] at hrun
    cases hd : fdalloc p s with
    | none =>
      rw [hd] at hrun
      obtain ⟨rfl, rfl⟩ := Prod.mk.inj (Except.ok.inj hrun)
      exact ⟨hs, .refl s⟩
    | some fd' =>
      rw [hd] at hrun
      obtain ⟨-, hf⟩ := argfd_eq_some ha
      obtain ⟨hlt, hfree⟩ := fdalloc_eq_some hd
      obtain ⟨hfdlt, hflt⟩ := hs.ftable.ofile_lt p _ f hf
      have hheld := one_le_fileRefs hfdlt hf
      have hone := hs.ftable.one_le_ref hflt (.inl hheld)
      have htype : (s.file f).type ≠ .none := fun hN => by
        have := hs.ftable.none_unheld f hflt hN
        omega
      obtain ⟨u, hu, hdup, hofile, hcwd⟩ := hs.ftable.filedup hs.itable hflt (.inl hheld)
      rw [filedup_eq hone] at hu
      cases hu
      -- `filedup` reads and writes the file table only, so it commutes with the new descriptor
      obtain ⟨u', hc, hrun⟩ := Loop.bind_eq_ok.mp hrun
      rw [filedup_eq (s := s.setOfile p fd' (some f)) hone] at hc
      cases hc
      obtain ⟨rfl, rfl⟩ := Prod.mk.inj (Except.ok.inj hrun)
      exact (hdup.trans (FStep.give hdup.ftable hdup.itable hlt (hs.ftable.cwd_ne hf) hfree
        (by simpa using htype))).fsInv

/-- `sys_chdir`: the new directory's reference goes to `p->cwd`, the old one's back. -/
theorem FsInv.sysChdir {path : List Char} (hs : FsInv s)
    (hrun : Xv6.sysChdir p path s = .ok (t, r)) : FsInv t ∧ DirsKept s t := by
  unfold Xv6.sysChdir at hrun
  by_cases hok : argstrOk path
  swap
  · rw [if_pos hok] at hrun
    obtain ⟨rfl, rfl⟩ := Prod.mk.inj (Except.ok.inj hrun)
    exact ⟨hs, .refl s⟩
  rw [if_neg (not_not.mpr hok)] at hrun
  obtain ⟨⟨r₀, s₁⟩, hn, hrun⟩ := Loop.bind_eq_ok.mp hrun
  have hstep₁ := namei_ok hs.itable hn
  rw [List.append_nil] at hstep₁
  cases r₀ with
  | none =>
    obtain ⟨rfl, rfl⟩ := Prod.mk.inj (Except.ok.inj hrun)
    exact ⟨hs.of_step hstep₁, hstep₁.kept⟩
  | some ip =>
    obtain ⟨s₂, hl₂, hrun⟩ := Loop.bind_eq_ok.mp hrun
    obtain ⟨hstep₂, hfree, -⟩ := hstep₁.itable.ilock hl₂
    have hpre := (hstep₁.trans hstep₂).fstep hs.ftable
    dsimp only at hrun
    by_cases hdir : (s₂.ino ip).type ≠ .dir
    · rw [if_pos hdir] at hrun
      obtain ⟨rfl, rfl⟩ := Prod.mk.inj (Except.ok.inj hrun)
      exact (hpre.trans (hpre.itable.iput_head.fstep hpre.ftable)).fsInv
    rw [if_neg hdir] at hrun
    obtain ⟨c, hcd, hrun⟩ := Loop.bind_eq_ok.mp hrun
    obtain ⟨rfl, rfl⟩ := Prod.mk.inj (Except.ok.inj hrun)
    have hc := Fs.curdir_eq_ok.mp hcd
    -- `p->cwd` takes the new directory first; the old one is then the call's to `iput`
    let v : Fs := { s₂ with cwd := Function.update s₂.cwd p (some ip) }
    have hit : ITable v [c] := by
      refine hpre.itable.setCwd rfl rfl rfl rfl (fun j => ?_) fun j hj => ?_
      · rw [hc]
        simp only [Option.toList_some, List.count_singleton, beq_iff_eq, Option.some.injEq]
        exact Nat.add_comm _ _
      · cases hj
        exact hfree
    have hft : FTable v [] := by
      refine hpre.ftable.of_cwd rfl rfl rfl rfl fun q fd hq => hpre.ftable.dead q fd ?_
      by_cases hqp : q = p
      · subst hqp
        simp [v] at hq
      · simpa [v, hqp] using hq
    have hput := hit.iput_head
    rw [iput_cwd, ← iput_with_cwd]
    exact (hpre.trans ⟨hft, hit, .of_inode rfl⟩ |>.trans (hput.fstep hft)).fsInv

/-- `sys_open`: the inode `create` or `namei` gives goes to a new file, the file to a new
descriptor; every failure path gives back what it took. -/
theorem FsInv.sysOpen {path : List Char} {omode : Nat} (hs : FsInv s) (hcwd : s.cwd p ≠ none)
    (hrun : Xv6.sysOpen p path omode s = .ok (t, r)) : FsInv t ∧ DirsKept s t := by
  unfold Xv6.sysOpen at hrun
  by_cases hok : argstrOk path
  swap
  · rw [if_pos hok] at hrun
    obtain ⟨rfl, rfl⟩ := Prod.mk.inj (Except.ok.inj hrun)
    exact ⟨hs, .refl s⟩
  rw [if_neg (not_not.mpr hok)] at hrun
  -- the code after the lookup is one join point `J` of both lookups
  extract_lets J at hrun
  obtain ⟨r₀, s₁, hfirst, halloc, hrun⟩ : ∃ r₀ s₁, IStep s s₁ r₀.toList ∧
      (∀ ip, r₀ = some ip → (s₁.ino ip).type ≠ .free) ∧ J (r₀, s₁) = .ok (t, r) := by
    split_ifs at hrun
    · obtain ⟨⟨r₀, s₁⟩, hlook, hrun⟩ := Loop.bind_eq_ok.mp hrun
      obtain ⟨hit, hsame, halloc, hkept, -⟩ := create_spec hs.itable (by decide) hlook
      exact ⟨r₀, s₁, ⟨hit, hkept (by decide), hsame⟩, halloc, hrun⟩
    · obtain ⟨⟨r₁, s₃⟩, hn, hrun⟩ := Loop.bind_eq_ok.mp hrun
      have hstep₁ := namei_ok hs.itable hn
      rw [List.append_nil] at hstep₁
      cases r₁ with
      | none => exact ⟨none, s₃, hstep₁, nofun, hrun⟩
      | some ip =>
        obtain ⟨s₄, hl, hrun⟩ := Loop.bind_eq_ok.mp hrun
        obtain ⟨hstep₂, hfree, -⟩ := hstep₁.itable.ilock hl
        split_ifs at hrun
        · exact ⟨none, _, (hstep₁.trans hstep₂).trans hstep₂.itable.iput_head, nofun, hrun⟩
        · exact ⟨some ip, s₄, hstep₁.trans hstep₂, fun _ h => by cases h; exact hfree, hrun⟩
  simp only [J] at hrun
  have hpre := hfirst.fstep hs.ftable
  cases r₀ with
  | none =>
    obtain ⟨rfl, rfl⟩ := Prod.mk.inj (Except.ok.inj hrun)
    exact hpre.fsInv
  | some ip =>
    -- the paths that give the inode back
    have hback : FStep s (iput ip s₁) [] [] := hpre.trans (hpre.itable.iput_head.fstep hpre.ftable)
    dsimp only at hrun
    by_cases hdev : (s₁.ino ip).type = .device ∧
        ((s₁.ino ip).major < 0 ∨ (NDEV : Int) ≤ (s₁.ino ip).major)
    · rw [if_pos hdev] at hrun
      obtain ⟨rfl, rfl⟩ := Prod.mk.inj (Except.ok.inj hrun)
      exact hback.fsInv
    rw [if_neg hdev] at hrun
    cases ha : Xv6.filealloc s₁ with
    | none =>
      rw [ha] at hrun
      obtain ⟨rfl, rfl⟩ := Prod.mk.inj (Except.ok.inj hrun)
      exact hback.fsInv
    | some a =>
      obtain ⟨f, s₂⟩ := a
      rw [ha] at hrun
      have hst₂ := hpre.trans (hpre.ftable.filealloc hpre.itable ha)
      obtain ⟨hf, -, hs₂⟩ := filealloc_eq_some ha
      dsimp only at hrun
      cases hd : fdalloc p s₂ with
      | none =>
        rw [hd] at hrun
        obtain ⟨s₃, hc, hrun⟩ := Loop.bind_eq_ok.mp hrun
        obtain ⟨rfl, rfl⟩ := Prod.mk.inj (Except.ok.inj hrun)
        obtain ⟨u, hu, hclose, -, -⟩ := hst₂.ftable.fileclose hst₂.itable
        obtain rfl : u = s₃ := Except.ok.inj (hu.symm.trans hc)
        have hst₃ := hst₂.trans hclose
        exact (hst₃.trans (hst₃.itable.iput_head.fstep hst₃.ftable)).fsInv
      | some fd =>
        rw [hd] at hrun
        obtain ⟨rfl, rfl⟩ := Prod.mk.inj (Except.ok.inj hrun)
        obtain ⟨hfd, hfdfree⟩ := fdalloc_eq_some hd
        subst hs₂
        -- the file takes the inode, then the descriptor takes the file
        let T : FileType := if (s₁.ino ip).type = .device then .device ip else .inode ip
        have hT : T.ip? = some ip := by
          simp only [T]
          split <;> rfl
        have hTnone : T ≠ .none := by
          simp only [T]
          split <;> simp
        have hTpipe : ∀ pi w, T ≠ .pipe pi w := by
          intro pi w
          simp only [T]
          split <;> simp
        let v : Fs := { s₁ with
          file := Function.update (Function.update s₁.file f ⟨1, .none⟩) f ⟨1, T⟩ }
        have hft : FTable v [f] := by
          refine hst₂.ftable.setFile hf rfl (fun _ _ => rfl) hst₂.ftable.pend_lt (by simp)
            (fun h => absurd h hTnone) (by simp) (fun pi w => ?_)
          exact iff_of_false (hTpipe pi w) (by simp)
        have hit : ITable v [] :=
          hst₂.itable.attach hf (by simp [FileType.ip?]) hT (halloc ip rfl)
        have hcwd₁ : v.cwd p ≠ none := by
          simp only [v]
          rwa [hfirst.same.cwd]
        have htype : (v.file f).type ≠ .none := by
          simp only [v, Function.update_self]
          exact hTnone
        have hw : FStep s (v.setOfile p fd (some f)) [] [] :=
          (hst₂.trans ⟨hft, hit, .of_inode rfl⟩).trans (FStep.give hft hit hfd hcwd₁ hfdfree htype)
        -- `O_TRUNC` on a plain file frees its blocks
        have hfin : ∀ (c : Prop) [Decidable c], (c → ((v.setOfile p fd (some f)).ino ip).type = .file) →
            FsInv (if c then itrunc ip (v.setOfile p fd (some f)) else v.setOfile p fd (some f)) ∧
              DirsKept s (if c then itrunc ip (v.setOfile p fd (some f)) else v.setOfile p fd (some f)) := by
          intro c _ hc
          split_ifs with h
          · exact (hw.trans ((hw.itable.itrunc (by rw [hc h]; decide)).fstep hw.ftable)).fsInv
          · exact hw.fsInv
        exact hfin (omode &&& O_TRUNC ≠ 0 ∧ _) fun h => h.2

/-- `sys_pipe`: the two files `pipealloc` makes go to two new descriptors; every failure path
takes them back and closes them. -/
theorem FsInv.sysPipe {kallocOk copyOk : Bool} (hs : FsInv s) (hcwd : s.cwd p ≠ none)
    (hrun : Xv6.sysPipe p kallocOk copyOk s = .ok (t, r)) : FsInv t ∧ DirsKept s t := by
  unfold Xv6.sysPipe at hrun
  obtain ⟨⟨r₀, s₁⟩, ha, hrun⟩ := Loop.bind_eq_ok.mp hrun
  obtain ⟨-, hcwd₁, hnone, hsome⟩ := hs.ftable.pipealloc hs.itable ha
  cases r₀ with
  | none =>
    obtain ⟨rfl, rfl⟩ := Prod.mk.inj (Except.ok.inj hrun)
    exact (hnone rfl).fsInv
  | some e =>
    obtain ⟨rf, wf⟩ := e
    obtain ⟨h₁, hrt, hwt⟩ := hsome rf wf rfl
    have hcwd₁ : s₁.cwd p ≠ none := by rwa [hcwd₁]
    -- both files closed again, from a state that holds them
    have hcloseBoth : ∀ {u u₁ u₂ : Fs}, FStep s u [rf, wf] [] → Xv6.fileclose rf u = .ok u₁ →
        Xv6.fileclose wf u₁ = .ok u₂ → FStep s u₂ [] [] := by
      intro u u₁ u₂ hu hc₁ hc₂
      obtain ⟨v₁, hv₁, hst₁, -, -⟩ := hu.ftable.fileclose hu.itable
      obtain rfl : v₁ = u₁ := Except.ok.inj (hv₁.symm.trans hc₁)
      obtain ⟨v₂, hv₂, hst₂, -, -⟩ := hst₁.ftable.fileclose hst₁.itable
      obtain rfl : v₂ = u₂ := Except.ok.inj (hv₂.symm.trans hc₂)
      exact (hu.trans hst₁).trans hst₂
    dsimp only at hrun
    cases hd₀ : fdalloc p s₁ with
    | none =>
      rw [hd₀] at hrun
      obtain ⟨u₁, hc₁, hrun⟩ := Loop.bind_eq_ok.mp hrun
      obtain ⟨u₂, hc₂, hrun⟩ := Loop.bind_eq_ok.mp hrun
      obtain ⟨rfl, rfl⟩ := Prod.mk.inj (Except.ok.inj hrun)
      exact (hcloseBoth ⟨h₁.ftable.perm (.swap rf wf []), h₁.itable, h₁.kept⟩ hc₁ hc₂).fsInv
    | some fd0 =>
      rw [hd₀] at hrun
      obtain ⟨hlt₀, hfree₀⟩ := fdalloc_eq_some hd₀
      -- the read end to `fd0`
      have hg₀ : FStep s (s₁.setOfile p fd0 (some rf)) [wf] [] :=
        h₁.trans (FStep.give (h₁.ftable.perm (.swap rf wf [])) h₁.itable hlt₀ hcwd₁ hfree₀ hrt)
      dsimp only at hrun
      cases hd₁ : fdalloc p (s₁.setOfile p fd0 (some rf)) with
      | none =>
        rw [hd₁] at hrun
        obtain ⟨u₁, hc₁, hrun⟩ := Loop.bind_eq_ok.mp hrun
        obtain ⟨u₂, hc₂, hrun⟩ := Loop.bind_eq_ok.mp hrun
        obtain ⟨rfl, rfl⟩ := Prod.mk.inj (Except.ok.inj hrun)
        exact (hcloseBoth (hg₀.trans (FStep.take hg₀.ftable hg₀.itable (by simp))) hc₁ hc₂).fsInv
      | some fd1 =>
        rw [hd₁] at hrun
        obtain ⟨hlt₁, hfree₁⟩ := fdalloc_eq_some hd₁
        have hne : fd1 ≠ fd0 := by
          rintro rfl
          simp at hfree₁
        -- the write end to `fd1`
        have hg₁ : FStep s ((s₁.setOfile p fd0 (some rf)).setOfile p fd1 (some wf)) [] [] :=
          hg₀.trans (FStep.give hg₀.ftable hg₀.itable hlt₁ hcwd₁ hfree₁ hwt)
        dsimp only at hrun
        cases copyOk with
        | true =>
          obtain ⟨rfl, rfl⟩ := Prod.mk.inj (Except.ok.inj hrun)
          exact hg₁.fsInv
        | false =>
          obtain ⟨u₁, hc₁, hrun⟩ := Loop.bind_eq_ok.mp hrun
          obtain ⟨u₂, hc₂, hrun⟩ := Loop.bind_eq_ok.mp hrun
          obtain ⟨rfl, rfl⟩ := Prod.mk.inj (Except.ok.inj hrun)
          -- `copyout` failed: both descriptors give their files back
          have ht₀ := hg₁.trans (FStep.take hg₁.ftable hg₁.itable
            (show Fs.ofile _ p fd0 = some rf by simp [Ne.symm hne]))
          have ht₁ := ht₀.trans (FStep.take ht₀.ftable ht₀.itable
            (show Fs.ofile _ p fd1 = some wf by simp [hne]))
          exact (hcloseBoth ⟨ht₁.ftable.perm (.swap rf wf []), ht₁.itable, ht₁.kept⟩ hc₁ hc₂).fsInv

/-- The loop of `kfork` that `filedup`s `p`'s descriptors succeeds; the call then holds one more
reference for every descriptor of `p`. -/
theorem kforkDup_spec {u : Fs} (hs : FsInv s)
    (hrun : (List.range NOFILE).foldlM (fun s fd =>
      match s.ofile p fd with
      | some f => filedup f s
      | none => .ok s) s = .ok u) :
    ∃ l : List Nat, (∀ g, l.count g = fdRefs (s.ofile p) g) ∧ FStep s u l [] ∧
      u.ofile = s.ofile ∧ u.cwd = s.cwd := by
  -- after `i` rounds the call holds the files of `p`'s first `i` descriptors
  obtain ⟨u', hu', hI⟩ := Loop.foldlM_range (f := fun s fd =>
      match s.ofile p fd with
      | some f => filedup f s
      | none => .ok s)
    (fun i v => ∃ l : List Nat, (∀ g, l.count g = Count.count (Finset.range i) (s.ofile p) (· = some g)) ∧
      FStep s v l [] ∧ v.ofile = s.ofile ∧ v.cwd = s.cwd) NOFILE
    (fun i v hi ⟨l, hl, hv, hofile, hcwd⟩ => by
      cases hfd : v.ofile p i with
      | none =>
        have hfd' : s.ofile p i = none := hofile ▸ hfd
        refine ⟨v, rfl, l, fun g => ?_, hv, hofile, hcwd⟩
        rw [Count.count_range_succ, hfd', hl g]
        simp
      | some f =>
        have hf := (hv.ftable.ofile_lt p i f hfd).2
        obtain ⟨v', hv', hdup, hofile', hcwd'⟩ :=
          hv.ftable.filedup hv.itable hf (.inl (one_le_fileRefs hi hfd))
        refine ⟨v', hv', f :: l, fun g => ?_, hv.trans hdup, hofile'.trans hofile,
          hcwd'.trans hcwd⟩
        have hfd' : s.ofile p i = some f := hofile ▸ hfd
        rw [Count.count_range_succ, hfd', ← hl g, List.count_cons]
        simp only [beq_iff_eq, Option.some.injEq])
    s ⟨[], fun g => by simp [Count.count], .refl hs.ftable hs.itable, rfl, rfl⟩
  obtain rfl : u' = u := Except.ok.inj (hu'.symm.trans hrun)
  exact hI

/-- The files part of `kfork`: the child `np` gets `p`'s directory and a copy of its
descriptors, each with one more reference. -/
theorem FsInv.kforkFiles {np : Fin NPROC} (hs : FsInv s) (hnp : s.cwd np = none)
    (hrun : Xv6.kforkFiles p np s = .ok t) : FsInv t ∧ DirsKept s t := by
  unfold Xv6.kforkFiles at hrun
  obtain ⟨u, hloop, hrun⟩ := Loop.bind_eq_ok.mp hrun
  obtain ⟨c, hcd, hrun⟩ := Loop.bind_eq_ok.mp hrun
  obtain rfl := Except.ok.inj hrun
  obtain ⟨l, hl, hst, hofile, hcwdu⟩ := kforkDup_spec hs hloop
  have hc : u.cwd p = some c := Fs.curdir_eq_ok.mp hcd
  have hnp' : u.cwd np = none := by rwa [hcwdu]
  have hheld := one_le_inodeRefs_cwd hc
  -- `idup` of the directory, which the child then takes
  have hdup := hst.itable.idup (hst.itable.one_le_ref_of_held hheld)
  have hit : ITable { idup c u with
      cwd := Function.update u.cwd np (some c)
      ofile := Function.update u.ofile np (u.ofile p) } [] := by
    refine hdup.itable.setCwd rfl rfl rfl rfl (fun j => ?_) fun j hj => ?_
    · have hj' : (idup c u).cwd np ≠ some j := by
        change u.cwd np ≠ some j
        simp [hnp']
      simp [List.count_singleton, hj']
    · cases hj
      rw [idup_ino]
      exact hst.itable.held_alloc c hheld
  have hft : FTable { idup c u with
      cwd := Function.update u.cwd np (some c)
      ofile := Function.update u.ofile np (u.ofile p) } [] := by
    refine (hst.ftable.of_same hdup.same).copyRow hnp' (by simp) (fun g => ?_) nofun rfl
    rw [hl g, List.count_nil, Nat.add_zero]
    change fdRefs (s.ofile p) g = fdRefs (u.ofile p) g
    rw [hofile]
  exact ⟨⟨hft, hit⟩, hst.kept.trans (.of_inode rfl)⟩

/-- `kexit`'s loop closes `p`'s descriptors from `fd` on. -/
theorem closeAllLoop_spec : ∀ (n fd : Nat) (s : Fs), FsInv s → (∀ j < fd, s.ofile p j = none) →
    closeAllLoop p n fd s = .ok t → FStep s t [] [] ∧ t.cwd = s.cwd ∧ ∀ j < fd + n, t.ofile p j = none
  | 0, fd, s, hs, hdone, hrun => by
    obtain rfl := Except.ok.inj hrun
    exact ⟨.refl hs.ftable hs.itable, rfl, hdone⟩
  | n + 1, fd, s, hs, hdone, hrun => by
    unfold closeAllLoop at hrun
    cases hfd : s.ofile p fd with
    | none =>
      rw [hfd] at hrun
      obtain ⟨hst, hcwd, hnone⟩ := closeAllLoop_spec n (fd + 1) s hs (fun j hj => by
        rcases Nat.lt_succ_iff_lt_or_eq.mp hj with hj | rfl
        · exact hdone j hj
        · exact hfd) hrun
      exact ⟨hst, hcwd, fun j hj => hnone j (by omega)⟩
    | some f =>
      rw [hfd] at hrun
      obtain ⟨s', hc, hrun⟩ := Loop.bind_eq_ok.mp hrun
      -- `fileclose` does not look at the descriptors, so closing first and then clearing the
      -- descriptor is the descriptor's reference handed to `fileclose`
      have htake := FStep.take hs.ftable hs.itable hfd
      obtain ⟨w, hw, hclose, hofile, hcwd⟩ := htake.ftable.fileclose htake.itable
      rw [fileclose_setOfile, hc] at hw
      obtain rfl : s'.setOfile p fd none = w := Except.ok.inj hw
      have hst := htake.trans hclose
      obtain ⟨hst', hcwd', hnone⟩ := closeAllLoop_spec n (fd + 1) _ hst.fsInv.1 (fun j hj => by
        rw [hofile, Fs.setOfile_ofile]
        rcases Nat.lt_succ_iff_lt_or_eq.mp hj with hj | rfl
        · simp [hdone j hj]
        · simp) hrun
      exact ⟨hst.trans hst', hcwd'.trans hcwd, fun j hj => hnone j (by omega)⟩

/-- The files part of `kexit`: every descriptor is closed, then the directory given back. -/
theorem FsInv.kexitFiles (hs : FsInv s) (hrun : Xv6.kexitFiles p s = .ok t) :
    FsInv t ∧ DirsKept s t := by
  unfold Xv6.kexitFiles at hrun
  split_ifs at hrun with hinit
  · cases hrun
  obtain ⟨u, hloop, hrun⟩ := Loop.bind_eq_ok.mp hrun
  obtain ⟨c, hcd, hrun⟩ := Loop.bind_eq_ok.mp hrun
  obtain rfl := Except.ok.inj hrun
  obtain ⟨hst, hcwdu, hnone⟩ := closeAllLoop_spec NOFILE 0 s hs nofun hloop
  have hall : ∀ fd, u.ofile p fd = none := by
    intro fd
    by_cases hfd : fd < NOFILE
    · exact hnone fd (by omega)
    · cases h : u.ofile p fd with
      | none => rfl
      | some f => exact absurd (hst.ftable.ofile_lt p fd f h).1 hfd
  have hc : u.cwd p = some c := Fs.curdir_eq_ok.mp hcd
  -- the directory's reference goes to the call, which gives it back with `iput`
  let v : Fs := { u with cwd := Function.update u.cwd p none }
  have hit : ITable v [c] := by
    refine hst.itable.setCwd rfl rfl rfl rfl (fun j => ?_) nofun
    rw [hc]
    simp [List.count_singleton]
  have hft : FTable v [] := by
    refine hst.ftable.of_cwd rfl rfl rfl rfl fun q fd hq => ?_
    by_cases hqp : q = p
    · subst hqp
      exact hall fd
    · exact hst.ftable.dead q fd (by simpa [v, hqp] using hq)
  have hput := hit.iput_head
  rw [iput_cwd, ← iput_with_cwd]
  exact (hst.trans ⟨hft, hit, .of_inode rfl⟩ |>.trans (hput.fstep hft)).fsInv

end Calls

/-! ## Runs -/

section Runs

variable {s t : Fs}

/-- One call keeps both tables exact, and every directory as it was made (`mkdir` may make
one). -/
theorem FsInv.next {e : Fin NPROC × FsCall} (hs : FsInv s) (h : s.next e = some t) :
    FsInv t ∧ DirStep s t := by
  obtain ⟨p, c⟩ := e
  obtain ⟨hcwd, hfree, r, hrun⟩ := Fs.next_eq_some.mp h
  cases c with
  | «open» path omode => exact (hs.sysOpen hcwd hrun).imp_right DirsKept.dirStep
  | mkdir path => exact hs.sysMkdir hrun
  | mknod path major minor => exact (hs.sysMknod hrun).imp_right DirsKept.dirStep
  | link old new => exact (hs.sysLink hrun).imp_right DirsKept.dirStep
  | unlink path => exact (hs.sysUnlink hrun).imp_right DirsKept.dirStep
  | chdir path => exact (hs.sysChdir hrun).imp_right DirsKept.dirStep
  | close fd => exact (hs.sysClose hrun).imp_right DirsKept.dirStep
  | dup fd => exact (hs.sysDup hrun).imp_right DirsKept.dirStep
  | pipe kallocOk copyOk => exact (hs.sysPipe hcwd hrun).imp_right DirsKept.dirStep
  | fork np =>
    obtain ⟨u, hf, hrun⟩ := Loop.bind_eq_ok.mp hrun
    obtain ⟨rfl, rfl⟩ := Prod.mk.inj (Except.ok.inj hrun)
    have hnp : s.cwd np = none := by simpa [FsCall.slotFree] using hfree
    exact (hs.kforkFiles hnp hf).imp_right DirsKept.dirStep
  | exit =>
    obtain ⟨u, hf, hrun⟩ := Loop.bind_eq_ok.mp hrun
    obtain ⟨rfl, rfl⟩ := Prod.mk.inj (Except.ok.inj hrun)
    exact (hs.kexitFiles hf).imp_right DirsKept.dirStep

/-- After boot no file is open, and the root's entry is the one entry in use, held by
`initproc`'s directory. -/
theorem FsInv.boot (files : List (List Char × Nat)) : FsInv (Fs.boot files) := by
  have hrefs : ∀ f, fileRefs (Fs.boot files) f = 0 := fun f => by
    simp [fileRefs, fdRefs, Count.count, Fs.boot]
  -- the holders of the entries: `initproc`'s directory holds the root's
  have hheld : ∀ ip, inodeRefs (Fs.boot files) ip = if rootSlot = ip then 1 else 0 := by
    intro ip
    have hcwd := Count.count_update (S := Finset.univ) (P := (· = some ip))
      (g := fun _ : Fin NPROC => (none : Option (Fin NINODE))) (Finset.mem_univ initproc)
      (some rootSlot)
    have hzero : Count.count Finset.univ (fun _ : Fin NPROC => (none : Option (Fin NINODE)))
        (· = some ip) = 0 := Count.count_eq_zero.mpr fun _ _ => by simp
    have hfiles : Count.count (Finset.range NFILE)
        (fun f => ((Fs.boot files).file f).type.ip?) (· = some ip) = 0 :=
      Count.count_eq_zero.mpr fun _ _ => by simp [Fs.boot, FileType.ip?]
    rw [hzero] at hcwd
    simp only [reduceCtorEq, if_false, add_zero, zero_add, Option.some.injEq] at hcwd
    rw [inodeRefs, hfiles, zero_add]
    exact hcwd
  -- only the root's entry has a reference
  have hlive : ∀ ip, 0 < ((Fs.boot files).itable ip).ref → ip = rootSlot := by
    intro ip hpos
    by_contra hne
    simp [Fs.boot, hne, IEntry.zero] at hpos
  have hopen : ∀ p fd f, (Fs.boot files).ofile p fd = some f → False := fun _ _ _ h => by
    simp [Fs.boot] at h
  refine ⟨⟨fun p fd f h => (hopen p fd f h).elim, fun _ _ _ => rfl, fun f _ => ?_,
    fun f _ _ => hrefs f, fun _ _ _ => rfl, fun _ h => absurd h List.not_mem_nil, fun pi w => ?_,
    fun _ w _ => ?_⟩,
    ⟨fun ip => ?_, fun ip hpos => ?_, fun ip jp hi hj _ => ?_, fun ip hpos => ?_,
      fun ip hpos hfree => ?_⟩⟩
  · rw [hrefs f, List.count_nil]
    rfl
  · have hzero : pipeFiles (Fs.boot files) pi w = 0 :=
      Count.count_eq_zero.mpr fun _ _ => by simp [Fs.boot]
    rw [hzero]
    cases w <;> rfl
  · cases w <;> rfl
  · rw [hheld, List.count_nil, add_zero]
    by_cases hroot : ip = rootSlot
    · subst hroot
      simp [Fs.boot]
    · simp [Fs.boot, hroot, Ne.symm hroot, IEntry.zero]
  · obtain rfl := hlive ip hpos
    simp [Fs.boot, ROOTINO]
  · rw [hlive ip hi, hlive jp hj]
  · rw [hheld] at hpos
    by_cases hroot : rootSlot = ip
    · subst hroot
      simp [Fs.boot, mkfsInode]
    · simp [hroot] at hpos
  · obtain rfl := hlive ip hpos
    simp [Fs.boot, mkfsInode] at hfree

/-- Every state a run from boot reaches keeps both tables exact. -/
theorem FsInv.run {files : List (List Char × Nat)} {evs : List (Fin NPROC × FsCall)}
    (hrun : Trace.Run FsStep (Fs.boot files) evs s) : FsInv s :=
  Trace.Run.invariant (FsInv.boot files) (fun _ _ _ ht hstep => (ht.next hstep).1) hrun

theorem sysClose_eq {p : Fin NPROC} {fd f : Nat} (hlt : fd < NOFILE) (hfd : s.ofile p fd = some f) :
    Xv6.sysClose p fd s = (fileclose f (s.setOfile p fd none) >>= fun t => .ok (t, 0)) := by
  unfold Xv6.sysClose
  rw [if_neg (by omega), Int.toNat_natCast, hfd]
  rfl

/-- Closing a descriptor of a reachable state succeeds, and frees its file, with the pipe's end
closed or the inode given back, exactly when it was the last descriptor of that file. -/
theorem FsInv.sysClose_release {p : Fin NPROC} {fd f : Nat} (hs : FsInv s)
    (hfd : s.ofile p fd = some f) :
    ∃ t, Xv6.sysClose p fd s = .ok (t, 0) ∧ ((t.file f).type = .none ↔ fileRefs s f = 1) ∧
      (fileRefs s f = 1 →
        (∀ pi w, (s.file f).type = .pipe pi w → t.pipe pi = (pipeclose (s.pipe pi) w).1) ∧
        ∀ ip, (s.file f).type.ip? = some ip → (t.itable ip).ref + 1 = (s.itable ip).ref) ∧
      (1 < fileRefs s f → t.pipe = s.pipe ∧ t.itable = s.itable) := by
  obtain ⟨hlt, hf⟩ := hs.ftable.ofile_lt p fd f hfd
  have href := hs.ftable.ref_eq f hf
  rw [List.count_nil, add_zero] at href
  have hone := one_le_fileRefs hlt hfd
  have htype : (s.file f).type ≠ .none := fun hN => by
    have := hs.ftable.none_unheld f hf hN
    omega
  rw [sysClose_eq hlt hfd]
  by_cases hlast : fileRefs s f = 1
  · have h1 : ((s.setOfile p fd none).file f).ref = 1 := by
      rw [Fs.setOfile_file]
      omega
    have hkind : (∃ pi w, (s.file f).type = .pipe pi w) ∨
        ∃ ip, (s.file f).type.ip? = some ip ∧ ∀ pi w, (s.file f).type ≠ .pipe pi w := by
      cases hT : (s.file f).type with
      | none => exact absurd hT htype
      | pipe pi w => exact .inl ⟨pi, w, rfl⟩
      | inode ip => exact .inr ⟨ip, rfl, by simp⟩
      | device ip => exact .inr ⟨ip, rfl, by simp⟩
    rcases hkind with ⟨pi, w, hT⟩ | ⟨ip, hip, hnp⟩
    · -- a pipe: its end is closed
      rw [fileclose_last_pipe h1 hT]
      refine ⟨_, rfl, by simp [hlast], fun _ => ⟨fun pi' w' hT' => ?_, fun ip hip => ?_⟩, by omega⟩
      · obtain ⟨rfl, rfl⟩ := FileType.pipe.inj (hT.symm.trans hT')
        simp
      · rw [hT] at hip
        cases hip
    · -- an inode or a device: `iput` takes one reference off the entry
      rw [fileclose_last_ip h1 hip]
      refine ⟨_, rfl, by simp [iput_same.file, hlast], fun _ => ⟨fun pi w hT => absurd hT (hnp pi w),
        fun ip' hip' => ?_⟩, by omega⟩
      obtain rfl : ip = ip' := Option.some.inj (hip.symm.trans hip')
      have hheld := (hs.itable.release hf hip).one_le_ref List.mem_cons_self
      rw [iput_ref, if_pos rfl]
      change (s.itable ip).ref - 1 + 1 = (s.itable ip).ref
      change 1 ≤ (s.itable ip).ref at hheld
      omega
  · have h2 : 1 < ((s.setOfile p fd none).file f).ref := by
      rw [Fs.setOfile_file]
      omega
    rw [fileclose_shared h2]
    refine ⟨_, rfl, ?_, fun h => absurd h hlast, fun _ => ⟨rfl, rfl⟩⟩
    simp only [Fs.setOfile_file, Function.update_self]
    exact iff_of_false htype hlast

/-- Between system calls, in every state a run from boot reaches: each file's count is the
number of descriptors that hold it, all of live processes, and is zero exactly for a free
(`FD_NONE`) entry; each entry of the inode table has as count the number of open files that
hold it and of processes whose directory it is; no two entries with references hold one
`(dev, inum)`; and closing a descriptor frees its file, closing its pipe's end or giving its
inode back, exactly when it was the file's last descriptor. -/
theorem file_inode_refs_exact {files : List (List Char × Nat)} {evs : List (Fin NPROC × FsCall)}
    (hrun : Trace.Run FsStep (Fs.boot files) evs s) :
    (∀ f < NFILE, (s.file f).ref = fileRefs s f ∧ ((s.file f).ref = 0 ↔ (s.file f).type = .none)) ∧
    (∀ p fd, s.cwd p = none → s.ofile p fd = none) ∧
    (∀ ip, (s.itable ip).ref = inodeRefs s ip) ∧
    (∀ ip jp, 0 < (s.itable ip).ref → 0 < (s.itable jp).ref →
      (s.itable ip).dev = (s.itable jp).dev → (s.itable ip).inum = (s.itable jp).inum → ip = jp) ∧
    ∀ (p : Fin NPROC) (fd f : Nat), s.ofile p fd = some f →
      ∃ t, Xv6.sysClose p fd s = .ok (t, 0) ∧ ((t.file f).type = .none ↔ fileRefs s f = 1) ∧
        (fileRefs s f = 1 →
          (∀ pi w, (s.file f).type = .pipe pi w → t.pipe pi = (pipeclose (s.pipe pi) w).1) ∧
          ∀ ip, (s.file f).type.ip? = some ip → (t.itable ip).ref + 1 = (s.itable ip).ref) ∧
        (1 < fileRefs s f → t.pipe = s.pipe ∧ t.itable = s.itable) := by
  have hs := FsInv.run hrun
  refine ⟨fun f hf => ⟨?_, ⟨hs.ftable.free_none f hf, fun hN => ?_⟩⟩, hs.ftable.dead,
    fun ip => ?_, fun ip jp hi hj _ heq => hs.itable.unique ip jp hi hj heq,
    fun p fd f hfd => hs.sysClose_release hfd⟩
  · simpa using hs.ftable.ref_eq f hf
  · have := hs.ftable.ref_eq f hf
    have := hs.ftable.none_unheld f hf hN
    simp only [List.count_nil, add_zero] at *
    omega
  · simpa using hs.itable.ref_eq ip

/-- At boot: the root's entry is counted once, for `initproc`'s directory. -/
theorem file_inode_refs_exact_at_boot :
    ((Fs.boot []).itable rootSlot).ref = inodeRefs (Fs.boot []) rootSlot :=
  (file_inode_refs_exact (Trace.Run.nil _)).2.2.1 rootSlot

end Runs

end Xv6
