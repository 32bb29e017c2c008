import Mathlib
import Xv6.Lib.Count
import Xv6.Lib.Loop
import Xv6.Proofs.FsProofs

/-!
# The inode layer: exact reference counts and well-formed directories

Between system calls every entry of the inode table is held by the open files that name it
and the processes whose current directory it is, and by nothing else (`inodeRefs`). Within a
call, the references the call itself holds are a list `h` of entries (`ITable s h`): `iget`
and `idup` push one, `iput` pops one, and handing a reference to a file or a current
directory moves it out of `h`. An entry with a reference is on the one disk and holds an inode
no other such entry holds; the scan of `iget` keeps that, since it takes an entry without
references only when no entry holds the inode. An inode that no file and no directory holds
and that is free is never valid in its entry, so `ilock` refuses it.

A directory `d` made in `q` is `WfDir d q`: its first entries are `.` naming `d` and `..`
naming `q`, and no two used entries share a name. The calls of the inode layer keep every
directory that stays one as it was made (`DirKept`); the one exception is the directory that
`mkdir` makes, which `create` builds in place.
-/

namespace Xv6

/-! ## Who holds an entry of the inode table -/

/-- The open files and the current directories that hold the entry `ip`. -/
def inodeRefs (s : Fs) (ip : Fin NINODE) : Nat :=
  Count.count (Finset.range NFILE) (fun f => (s.file f).type.ip?) (· = some ip) +
    Count.count Finset.univ s.cwd (· = some ip)

/-- A process whose current directory is `c` holds it. -/
theorem one_le_inodeRefs_cwd {s : Fs} {p : Fin NPROC} {c : Fin NINODE} (hc : s.cwd p = some c) :
    1 ≤ inodeRefs s c := by
  have : 1 ≤ Count.count Finset.univ s.cwd (· = some c) := Count.one_le_count (Finset.mem_univ p) hc
  unfold inodeRefs
  omega

/-- The file table, the descriptors, the current directories and the pipes are those of `s`:
what the inode layer never writes. -/
structure Fs.SameFiles (s t : Fs) : Prop where
  file : t.file = s.file
  ofile : t.ofile = s.ofile
  cwd : t.cwd = s.cwd
  pipe : t.pipe = s.pipe
  npipe : t.npipe = s.npipe

namespace Fs.SameFiles

variable {s t u : Fs}

theorem refl (s : Fs) : s.SameFiles s := ⟨rfl, rfl, rfl, rfl, rfl⟩

theorem trans (h₁ : s.SameFiles t) (h₂ : t.SameFiles u) : s.SameFiles u :=
  ⟨h₂.file.trans h₁.file, h₂.ofile.trans h₁.ofile, h₂.cwd.trans h₁.cwd, h₂.pipe.trans h₁.pipe,
    h₂.npipe.trans h₁.npipe⟩

theorem inodeRefs_eq (h : s.SameFiles t) : inodeRefs t = inodeRefs s := by
  funext ip
  rw [inodeRefs, inodeRefs, h.file, h.cwd]

end Fs.SameFiles

/-- Only the inodes' counts and block fields changed: the inode table, the files, and every
inode's type and entries are those of `s`. -/
structure Fs.SameShape (s t : Fs) : Prop where
  itable : t.itable = s.itable
  same : s.SameFiles t
  type : ∀ i, (t.inode i).type = (s.inode i).type
  ents : ∀ i, (t.inode i).ents = (s.inode i).ents

namespace Fs.SameShape

variable {s t u : Fs}

theorem refl (s : Fs) : s.SameShape s := ⟨rfl, .refl s, fun _ => rfl, fun _ => rfl⟩

theorem trans (h₁ : s.SameShape t) (h₂ : t.SameShape u) : s.SameShape u :=
  ⟨h₂.itable.trans h₁.itable, h₁.same.trans h₂.same, fun i => (h₂.type i).trans (h₁.type i),
    fun i => (h₂.ents i).trans (h₁.ents i)⟩

/-- A change to one inode that keeps its type and entries. -/
theorem modify {i : Nat} {f : Inode → Inode} (ht : (f (s.inode i)).type = (s.inode i).type)
    (he : (f (s.inode i)).ents = (s.inode i).ents) : s.SameShape (s.modify i f) := by
  refine ⟨rfl, ⟨rfl, rfl, rfl, rfl, rfl⟩, fun j => ?_, fun j => ?_⟩ <;>
  · by_cases hj : j = i
    · subst hj
      simpa
    · simp [hj]

/-- A change to the inode an entry holds that keeps its type and entries. -/
theorem modifyAt {ip : Fin NINODE} {f : Inode → Inode} (ht : (f (s.ino ip)).type = (s.ino ip).type)
    (he : (f (s.ino ip)).ents = (s.ino ip).ents) : s.SameShape (s.modifyAt ip f) :=
  modify ht he

theorem nfree (n : Nat) : s.SameShape { s with nfree := n } :=
  ⟨rfl, ⟨rfl, rfl, rfl, rfl, rfl⟩, fun _ => rfl, fun _ => rfl⟩

theorem ino_type (h : s.SameShape t) (ip : Fin NINODE) : (t.ino ip).type = (s.ino ip).type := by
  rw [Fs.ino_eq, Fs.ino_eq, h.type, h.itable]

theorem ino_ents (h : s.SameShape t) (ip : Fin NINODE) : (t.ino ip).ents = (s.ino ip).ents := by
  rw [Fs.ino_eq, Fs.ino_eq, h.ents, h.itable]

end Fs.SameShape

/-- `balloc` takes a block off the bitmap and nothing else. -/
theorem balloc_sameShape {s t : Fs} (h : balloc s = some t) : s.SameShape t := by
  unfold balloc at h
  split at h
  · cases h
    exact .nfree _
  · cases h

/-- `bmapNew` changes block fields only. -/
theorem bmapNew_sameShape (ip : Fin NINODE) (bn : Nat) (s : Fs) : s.SameShape (bmapNew ip bn s).1 := by
  have hgrow : ∀ u : Fs, u.SameShape (u.modifyAt ip fun d => { d with nblocks := d.nblocks + 1 }) :=
    fun u => .modify rfl rfl
  -- the data block, from a state that differs from `s` in block fields only
  have hdata : ∀ u v : Fs, s.SameShape u → balloc u = some v →
      s.SameShape (v.modifyAt ip fun d => { d with nblocks := d.nblocks + 1 }) :=
    fun u v hu hb => (hu.trans (balloc_sameShape hb)).trans (hgrow v)
  unfold bmapNew
  dsimp only
  split_ifs with hbn hind
  · split
    · exact hdata s _ (.refl s) ‹_›
    · exact .refl s
  · -- the indirect block is there already
    dsimp only
    split
    · exact hdata s _ (.refl s) ‹_›
    · exact .refl s
  · cases hb : balloc s with
    | none => exact .refl s
    | some v =>
      -- the indirect block first
      have hind : s.SameShape ((v.modifyAt ip fun d => { d with nblocks := d.nblocks + 1 }).modifyAt
          ip fun d => { d with indirect := true }) :=
        ((balloc_sameShape hb).trans (hgrow v)).trans (.modify rfl rfl)
      dsimp only [Option.map_some]
      split
      · exact hdata _ _ hind ‹_›
      · exact hind

/-! ## The inode table with the references a call holds -/

/-- The inode table of `s` while a call holds the references `h`: each entry's `ref` counts the
files and directories that hold it and the call's references; an entry with a reference holds
an inode of the root disk, and no other such entry holds the same one; what a file or a
directory holds is allocated; an entry with a reference to a free inode is not valid. -/
structure ITable (s : Fs) (h : List (Fin NINODE)) : Prop where
  ref_eq : ∀ ip, (s.itable ip).ref = inodeRefs s ip + h.count ip
  live : ∀ ip, 0 < (s.itable ip).ref → (s.itable ip).dev = ROOTDEV ∧ (s.itable ip).inum ≠ 0
  unique : ∀ ip jp, 0 < (s.itable ip).ref → 0 < (s.itable jp).ref →
    (s.itable ip).inum = (s.itable jp).inum → ip = jp
  held_alloc : ∀ ip, 0 < inodeRefs s ip → (s.ino ip).type ≠ .free
  free_valid : ∀ ip, 0 < (s.itable ip).ref → (s.ino ip).type = .free →
    (s.itable ip).valid = false

namespace ITable

variable {s t : Fs} {h : List (Fin NINODE)}

theorem of_sameShape (hs : ITable s h) (ht : s.SameShape t) : ITable t h where
  ref_eq ip := by rw [ht.itable, ht.same.inodeRefs_eq]; exact hs.ref_eq ip
  live ip := by rw [ht.itable]; exact hs.live ip
  unique := by rw [ht.itable]; exact hs.unique
  held_alloc ip hpos := by
    rw [Fs.ino_eq, ht.type, ht.itable]
    rw [ht.same.inodeRefs_eq] at hpos
    exact hs.held_alloc ip hpos
  free_valid ip hpos hfree := by
    rw [Fs.ino_eq, ht.type, ht.itable] at hfree
    rw [ht.itable] at hpos ⊢
    exact hs.free_valid ip hpos hfree

/-- A reference the call holds is counted in the entry. -/
theorem one_le_ref (hs : ITable s h) {ip : Fin NINODE} (hi : ip ∈ h) : 1 ≤ (s.itable ip).ref := by
  rw [hs.ref_eq ip]
  have := List.count_pos_iff.mpr hi
  omega

/-- An entry held by a file or a directory has a reference. -/
theorem one_le_ref_of_held (hs : ITable s h) {ip : Fin NINODE} (hi : 0 < inodeRefs s ip) :
    1 ≤ (s.itable ip).ref := by
  rw [hs.ref_eq ip]
  omega

/-- A change of the entries' references and validity only, each entry holding the inode it
held and only an entry with a reference keeping or getting one: `t` holds `h'` where `s` held
`h`. -/
theorem of_refs {h' : List (Fin NINODE)} (hs : ITable s h) (hsame : s.SameFiles t)
    (hinode : t.inode = s.inode)
    (hentry : ∀ ip, (t.itable ip).dev = (s.itable ip).dev ∧ (t.itable ip).inum = (s.itable ip).inum)
    (hvalid : ∀ ip, (t.itable ip).valid = true → (s.itable ip).valid = true)
    (hlive : ∀ ip, 0 < (t.itable ip).ref → 0 < (s.itable ip).ref)
    (hr : ∀ ip, (t.itable ip).ref + h.count ip = (s.itable ip).ref + h'.count ip) :
    ITable t h' where
  ref_eq ip := by
    have := hr ip
    have := hs.ref_eq ip
    rw [hsame.inodeRefs_eq]
    omega
  live ip hpos := by
    rw [(hentry ip).1, (hentry ip).2]
    exact hs.live ip (hlive ip hpos)
  unique ip jp hi hj heq := by
    rw [(hentry ip).2, (hentry jp).2] at heq
    exact hs.unique ip jp (hlive ip hi) (hlive jp hj) heq
  held_alloc ip hpos := by
    rw [Fs.ino_eq, hinode, (hentry ip).2]
    rw [hsame.inodeRefs_eq] at hpos
    exact hs.held_alloc ip hpos
  free_valid ip hpos hfree := by
    rw [Fs.ino_eq, hinode, (hentry ip).2] at hfree
    cases hv : (t.itable ip).valid
    · rfl
    · exact absurd (hs.free_valid ip (hlive ip hpos) hfree) (by rw [hvalid ip hv]; decide)

/-- A change to one inode that frees nothing. -/
theorem modify {i : Nat} {f : Inode → Inode} (hs : ITable s h)
    (hf : (f (s.inode i)).type = .free → (s.inode i).type = .free) : ITable (s.modify i f) h := by
  have hsame : s.SameFiles (s.modify i f) := ⟨rfl, rfl, rfl, rfl, rfl⟩
  -- the inode after is free only where it was free before
  have hfree : ∀ j, ((s.modify i f).inode j).type = .free → (s.inode j).type = .free := by
    intro j hj
    by_cases hji : j = i
    · subst hji
      exact hf (by simpa using hj)
    · simpa [hji] using hj
  refine ⟨fun ip => ?_, hs.live, hs.unique, fun ip hpos hnf => ?_, fun ip hpos hj => ?_⟩
  · rw [hsame.inodeRefs_eq]
    exact hs.ref_eq ip
  · rw [hsame.inodeRefs_eq] at hpos
    exact hs.held_alloc ip hpos (hfree _ hnf)
  · exact hs.free_valid ip hpos (hfree _ hj)

/-- A change to the inode an entry holds that frees nothing. -/
theorem modifyAt {ip : Fin NINODE} {f : Inode → Inode} (hs : ITable s h)
    (hf : (f (s.ino ip)).type = .free → (s.ino ip).type = .free) : ITable (s.modifyAt ip f) h :=
  hs.modify hf

end ITable

/-! ## Directories -/

/-- Two entries do not share a name when both are used. -/
def Dirent.Distinct (a b : Dirent) : Prop := a.inum ≠ 0 → b.inum ≠ 0 → a.name ≠ b.name

/-- The directory `d` made in `q`: `.` and `..` first, and no name used twice. -/
def WfDir (d q : Nat) (ents : List Dirent) : Prop :=
  d ≠ 0 ∧ q ≠ 0 ∧ ents.take 2 = [⟨d, ['.']⟩, ⟨q, ['.', '.']⟩] ∧ ents.Pairwise Dirent.Distinct

/-- Every allocated directory is well formed. -/
def DirInv (s : Fs) : Prop := ∀ d, (s.inode d).type = .dir → ∃ q, WfDir d q (s.inode d).ents

/-- Inode `d` from `s` to `t`: a directory after was a directory before, and a directory made
in `q` still is one made in `q`. -/
def DirKept (s t : Fs) (d : Nat) : Prop :=
  (t.inode d).type = .dir → (s.inode d).type = .dir ∧
    ∀ q, WfDir d q (s.inode d).ents → WfDir d q (t.inode d).ents

/-- Every inode is kept. -/
def DirsKept (s t : Fs) : Prop := ∀ d, DirKept s t d

namespace DirKept

variable {s t u : Fs} {d : Nat}

theorem refl (s : Fs) (d : Nat) : DirKept s s d := fun hd => ⟨hd, fun _ h => h⟩

theorem trans (h₁ : DirKept s t d) (h₂ : DirKept t u d) : DirKept s u d := by
  intro hd
  obtain ⟨ht, hq₂⟩ := h₂ hd
  obtain ⟨hs, hq₁⟩ := h₁ ht
  exact ⟨hs, fun q hq => hq₂ q (hq₁ q hq)⟩

/-- An inode whose type and entries did not change. -/
theorem of_eq (ht : (t.inode d).type = (s.inode d).type) (he : (t.inode d).ents = (s.inode d).ents) :
    DirKept s t d := by
  intro hd
  rw [he]
  exact ⟨ht ▸ hd, fun _ h => h⟩

/-- An inode that is not a directory after. -/
theorem of_not_dir (hd : (t.inode d).type ≠ .dir) : DirKept s t d := fun h => absurd h hd

end DirKept

theorem DirsKept.refl (s : Fs) : DirsKept s s := DirKept.refl s

theorem DirsKept.trans {s t u : Fs} (h₁ : DirsKept s t) (h₂ : DirsKept t u) : DirsKept s u :=
  fun d => (h₁ d).trans (h₂ d)

theorem Fs.SameShape.dirsKept {s t : Fs} (h : s.SameShape t) : DirsKept s t :=
  fun d => .of_eq (h.type d) (h.ents d)

/-- A stretch of a call from `s` holding `h` to `t` holding `h'`: the table is exact at `t`,
every directory is kept, and nothing outside the inode layer changed. -/
structure IStep (s : Fs) (t : Fs) (h' : List (Fin NINODE)) : Prop where
  itable : ITable t h'
  kept : DirsKept s t
  same : s.SameFiles t

namespace IStep

variable {s t u : Fs} {h h' h'' : List (Fin NINODE)}

theorem refl (hs : ITable s h) : IStep s s h := ⟨hs, .refl s, .refl s⟩

theorem trans (h₁ : IStep s t h') (h₂ : IStep t u h'') : IStep s u h'' :=
  ⟨h₂.itable, h₁.kept.trans h₂.kept, h₁.same.trans h₂.same⟩

theorem of_sameShape (hs : ITable s h) (ht : s.SameShape t) : IStep s t h :=
  ⟨hs.of_sameShape ht, ht.dirsKept, ht.same⟩

end IStep

/-! ## `iget`, `idup`, `ilock`, `iput` -/

section Table

variable {s t : Fs} {h : List (Fin NINODE)} {ip : Fin NINODE}

theorem idup_itable (jp : Fin NINODE) : (idup ip s).itable jp =
    if jp = ip then { s.itable ip with ref := (s.itable ip).ref + 1 } else s.itable jp := by
  by_cases hj : jp = ip
  · subst hj
    simp [idup]
  · simp [idup, hj]

@[simp]
theorem idup_ino (jp : Fin NINODE) : (idup ip s).ino jp = s.ino jp := by
  by_cases hj : jp = ip
  · subst hj
    simp [idup]
  · simp [idup, hj]

/-- A new reference pushed by `idup` on an entry that has one. -/
theorem ITable.idup (hs : ITable s h) (hpos : 0 < (s.itable ip).ref) :
    IStep s (Xv6.idup ip s) (ip :: h) := by
  have hsame : s.SameFiles (Xv6.idup ip s) := ⟨rfl, rfl, rfl, rfl, rfl⟩
  refine ⟨hs.of_refs hsame rfl (fun jp => ?_) (fun jp => ?_) (fun jp hjp => ?_) (fun jp => ?_),
    fun d => .of_eq rfl rfl, hsame⟩
  -- only the entry `ip` changes, by one more reference
  all_goals by_cases hj : jp = ip
  · subst hj; simp [idup_itable]
  · simp [idup_itable, hj]
  · subst hj; simp [idup_itable]
  · simp [idup_itable, hj]
  · subst hj; exact hpos
  · simpa [idup_itable, hj] using hjp
  · subst hj
    rw [idup_itable, if_pos rfl, List.count_cons_self]
    show (s.itable jp).ref + 1 + _ = _
    omega
  · simp [idup_itable, hj, Ne.symm hj]

/-- `iget` of an inode that no entry with a reference holds, into an entry without references:
a new reference, to an entry that is not yet valid. -/
theorem ITable.recycle {dev inum : Nat} (hs : ITable s h) (hdev : dev = ROOTDEV) (hi : inum ≠ 0)
    (h0 : (s.itable ip).ref = 0)
    (hnone : ∀ jp, 0 < (s.itable jp).ref → ¬((s.itable jp).dev = dev ∧ (s.itable jp).inum = inum)) :
    IStep s (s.setEntry ip ⟨dev, inum, 1, false⟩) (ip :: h) := by
  have hsame : s.SameFiles (s.setEntry ip ⟨dev, inum, 1, false⟩) := ⟨rfl, rfl, rfl, rfl, rfl⟩
  -- nothing held the entry, and it holds a new inode
  have hfree : inodeRefs s ip + h.count ip = 0 := by rw [← hs.ref_eq ip, h0]
  refine ⟨⟨fun jp => ?_, fun jp hjp => ?_, fun jp kp hj hk heq => ?_, fun jp hjp => ?_,
    fun jp hjp hf => ?_⟩, fun d => .of_eq rfl rfl, hsame⟩
  · rw [hsame.inodeRefs_eq]
    by_cases hj : jp = ip
    · subst hj
      simp
      omega
    · simp [hj, Ne.symm hj, hs.ref_eq jp]
  · by_cases hj : jp = ip
    · subst hj
      simp [hdev, hi]
    · simpa [hj] using hs.live jp (by simpa [hj] using hjp)
  · -- the new entry's inode is held by no other entry with a reference
    have hother : ∀ kp, kp ≠ ip → 0 < (s.itable kp).ref → (s.itable kp).inum ≠ inum := by
      intro kp hk hpos heq
      exact hnone kp hpos ⟨(hs.live kp hpos).1.trans hdev.symm, heq⟩
    by_cases hji : jp = ip <;> by_cases hki : kp = ip
    · rw [hji, hki]
    · subst hji
      simp [hki] at hk heq
      exact absurd heq.symm (hother kp hki hk)
    · subst hki
      simp [hji] at hj heq
      exact absurd heq (hother jp hji hj)
    · simp [hji, hki] at hj hk heq
      exact hs.unique jp kp hj hk heq
  · rw [hsame.inodeRefs_eq] at hjp
    have hj : jp ≠ ip := fun hj => by subst hj; omega
    simpa [hj] using hs.held_alloc jp hjp
  · by_cases hj : jp = ip
    · subst hj
      simp
    · simp only [Fs.setEntry_itable, Function.update_of_ne hj] at hjp ⊢
      exact hs.free_valid jp hjp (by simpa [hj] using hf)

/-- `iget` of an inode of the root disk pushes a reference to the entry that holds it, made
from an entry without references when none holds it; the entries with references keep their
inodes. -/
theorem ITable.iget {dev inum : Nat} (hs : ITable s h) (hdev : dev = ROOTDEV) (hi : inum ≠ 0)
    (hg : Xv6.iget dev inum s = .ok (ip, t)) :
    IStep s t (ip :: h) ∧ t.inode = s.inode ∧ (t.itable ip).inum = inum ∧
      ∀ jp, 0 < (s.itable jp).ref → (t.itable jp).inum = (s.itable jp).inum := by
  rcases iget_ok hg with ⟨hpos, -, hinum, rfl⟩ | ⟨h0, hnone, rfl⟩
  · refine ⟨hs.idup hpos, rfl, by simp [idup_itable, hinum], fun jp _ => ?_⟩
    rw [idup_itable]
    split_ifs with hj
    · subst hj
      rfl
    · rfl
  · refine ⟨hs.recycle hdev hi h0 hnone, rfl, by simp, fun jp hjp => ?_⟩
    have hj : jp ≠ ip := fun hj => by rw [hj, h0] at hjp; exact absurd hjp (lt_irrefl 0)
    simp [hj]

/-- After `ilock` the inode is allocated and the entry valid; nothing else changed. -/
theorem ITable.ilock (hs : ITable s h) (hl : Xv6.ilock ip s = .ok t) :
    IStep s t h ∧ (t.ino ip).type ≠ .free ∧ (t.itable ip).valid = true ∧ t.inode = s.inode ∧
      ∀ jp, (t.itable jp).inum = (s.itable jp).inum ∧ (t.itable jp).ref = (s.itable jp).ref := by
  obtain ⟨href, hok, rfl⟩ := ilock_eq_ok.mp hl
  -- a valid entry with a reference holds an allocated inode
  have hfree : (s.ino ip).type ≠ .free := by
    rcases hok with hv | hf
    · intro hfree
      rw [hs.free_valid ip (by omega) hfree] at hv
      cases hv
    · exact hf
  have hsame : s.SameFiles (s.setEntry ip { s.itable ip with valid := true }) :=
    ⟨rfl, rfl, rfl, rfl, rfl⟩
  have hat : ∀ jp, (Function.update s.itable ip { s.itable ip with valid := true } jp).inum =
      (s.itable jp).inum ∧ (Function.update s.itable ip { s.itable ip with valid := true } jp).ref =
      (s.itable jp).ref ∧
      (Function.update s.itable ip { s.itable ip with valid := true } jp).dev = (s.itable jp).dev := by
    intro jp
    by_cases hj : jp = ip
    · subst hj
      simp
    · simp [hj]
  refine ⟨⟨⟨fun jp => ?_, fun jp hjp => ?_, fun jp kp hj hk heq => ?_, fun jp hjp => ?_,
      fun jp hjp hf => ?_⟩, fun d => .of_eq rfl rfl, hsame⟩, by simpa using hfree, by simp, rfl,
    fun jp => ⟨(hat jp).1, (hat jp).2.1⟩⟩
  · rw [hsame.inodeRefs_eq]
    simpa [(hat jp).2.1] using hs.ref_eq jp
  · simp only [Fs.setEntry_itable, (hat jp).1, (hat jp).2.1, (hat jp).2.2] at hjp ⊢
    exact hs.live jp hjp
  · simp only [Fs.setEntry_itable, (hat jp).1, (hat jp).2.1, (hat kp).1, (hat kp).2.1] at hj hk heq
    exact hs.unique jp kp hj hk heq
  · rw [hsame.inodeRefs_eq] at hjp
    simpa [(hat jp).1] using hs.held_alloc jp hjp
  · by_cases hj : jp = ip
    · subst hj
      exact absurd (by simpa using hf) hfree
    · simp only [Fs.setEntry_itable, Function.update_of_ne hj] at hjp ⊢
      exact hs.free_valid jp hjp (by simpa [hj] using hf)

theorem iput_same : s.SameFiles (iput ip s) := by
  unfold iput
  split <;> exact ⟨rfl, rfl, rfl, rfl, rfl⟩

theorem iput_ref (jp : Fin NINODE) :
    ((iput ip s).itable jp).ref = if jp = ip then (s.itable ip).ref - 1 else (s.itable jp).ref := by
  by_cases hj : jp = ip
  · subst hj
    unfold iput
    split <;> simp_all [itrunc]
  · unfold iput
    split <;> simp [itrunc, hj]

theorem iput_valid {jp : Fin NINODE} (h : ((iput ip s).itable jp).valid = true) :
    (s.itable jp).valid = true := by
  by_cases hj : jp = ip
  · subst hj
    unfold iput at h
    split at h <;> simp_all [itrunc]
  · unfold iput at h
    split at h <;> simp_all [itrunc]

/-- `iput` of `ip` leaves every inode but the one it holds alone. -/
theorem iput_inode_of_ne {j : Nat} (hj : j ≠ (s.itable ip).inum) : (Xv6.iput ip s).inode j = s.inode j := by
  by_cases hfree : (s.itable ip).ref = 1 ∧ (s.itable ip).valid = true ∧ (s.ino ip).nlink = 0
  · rw [iput_of_free hfree]
    simp [itrunc, hj]
  · rw [iput_of_keep hfree]
    rfl

/-- The reference popped by `iput`; the inode is freed when it was the last one and no link
is left. -/
theorem ITable.iput (hs : ITable s h) (hi : ip ∈ h) : IStep s (Xv6.iput ip s) (h.erase ip) := by
  have hcount : ∀ jp, (h.erase ip).count jp + (if jp = ip then 1 else 0) = h.count jp := by
    intro jp
    by_cases hj : jp = ip
    · subst hj
      rw [List.count_erase_self]
      have := List.count_pos_iff.mpr hi
      simp only [if_true]
      omega
    · rw [List.count_erase_of_ne hj, if_neg hj]
      rfl
  have hone := hs.one_le_ref hi
  have hr : ∀ jp, ((Xv6.iput ip s).itable jp).ref + h.count jp =
      (s.itable jp).ref + (h.erase ip).count jp := by
    intro jp
    have := hcount jp
    rw [iput_ref]
    by_cases hj : jp = ip
    · subst hj
      rw [if_pos rfl] at this ⊢
      omega
    · rw [if_neg hj] at this ⊢
      omega
  by_cases hfree : (s.itable ip).ref = 1 ∧ (s.itable ip).valid = true ∧ (s.ino ip).nlink = 0
  · -- the last reference: the entry is held by no file or directory, and its inode freed
    have hzero : inodeRefs s ip = 0 := by
      have := hs.ref_eq ip
      have := List.count_pos_iff.mpr hi
      omega
    have hsame : s.SameFiles (Xv6.iput ip s) := iput_same
    -- an entry with a reference other than `ip` holds another inode
    have hother : ∀ jp, jp ≠ ip → 0 < (s.itable jp).ref → (s.itable jp).inum ≠ (s.itable ip).inum :=
      fun jp hj hpos heq => hj (hs.unique jp ip hpos (by omega) heq)
    have hinode : ∀ jp, jp ≠ ip → 0 < (s.itable jp).ref →
        (Xv6.iput ip s).inode (s.itable jp).inum = s.inode (s.itable jp).inum :=
      fun jp hj hpos => iput_inode_of_ne (hother jp hj hpos)
    have hpos_of : ∀ jp, 0 < ((Xv6.iput ip s).itable jp).ref → jp ≠ ip ∧ 0 < (s.itable jp).ref := by
      intro jp hjp
      rw [iput_ref] at hjp
      split_ifs at hjp with hj
      · omega
      · exact ⟨hj, hjp⟩
    refine ⟨⟨fun jp => ?_, fun jp hjp => ?_, fun jp kp hj hk heq => ?_, fun jp hjp => ?_,
      fun jp hjp hf => ?_⟩, fun d => ?_, hsame⟩
    · have := hr jp
      have := hs.ref_eq jp
      rw [hsame.inodeRefs_eq]
      omega
    · obtain ⟨hj, hpos⟩ := hpos_of jp hjp
      simpa using hs.live jp hpos
    · obtain ⟨-, hj'⟩ := hpos_of jp hj
      obtain ⟨-, hk'⟩ := hpos_of kp hk
      simp only [iput_itable_inum] at heq
      exact hs.unique jp kp hj' hk' heq
    · rw [hsame.inodeRefs_eq] at hjp
      have hj : jp ≠ ip := fun hj => by subst hj; omega
      have hpos : 0 < (s.itable jp).ref := by have := hs.ref_eq jp; omega
      rw [Fs.ino_eq, iput_itable_inum, hinode jp hj hpos]
      exact hs.held_alloc jp hjp
    · obtain ⟨hj, hpos⟩ := hpos_of jp hjp
      rw [Fs.ino_eq, iput_itable_inum, hinode jp hj hpos] at hf
      have := hs.free_valid jp hpos hf
      cases hv : ((Xv6.iput ip s).itable jp).valid
      · rfl
      · rw [iput_valid hv] at this
        cases this
    · by_cases hd : d = (s.itable ip).inum
      · subst hd
        rw [iput_of_free hfree]
        exact .of_not_dir (by simp [itrunc])
      · exact .of_eq (by rw [iput_inode_of_ne hd]) (by rw [iput_inode_of_ne hd])
  · rw [iput_of_keep hfree] at hr ⊢
    have hsame : s.SameFiles (s.setEntry ip { s.itable ip with ref := (s.itable ip).ref - 1 }) :=
      ⟨rfl, rfl, rfl, rfl, rfl⟩
    refine ⟨hs.of_refs hsame rfl (fun jp => ?_) (fun jp => ?_) (fun jp hjp => ?_) hr,
      fun d => .of_eq rfl rfl, hsame⟩
    all_goals by_cases hj : jp = ip
    -- only the entry `ip` changes, by one reference less
    · subst hj; simp
    · simp [hj]
    · subst hj; simp
    · simp [hj]
    · subst hj; simp at hjp; omega
    · simpa [hj] using hjp

/-- Only how many references the call holds to each entry matters, not their order. -/
theorem ITable.perm {h' : List (Fin NINODE)} (hs : ITable s h) (hp : h.Perm h') : ITable s h' :=
  { hs with ref_eq := fun jp => by rw [← hp.count_eq]; exact hs.ref_eq jp }

theorem IStep.perm {u : Fs} {h' : List (Fin NINODE)} (hs : IStep s u h) (hp : h.Perm h') :
    IStep s u h' :=
  ⟨hs.itable.perm hp, hs.kept, hs.same⟩

/-- `iput` of the reference at the head of the list. -/
theorem ITable.iput_head (hs : ITable s (ip :: h)) : IStep s (Xv6.iput ip s) h := by
  have hstep := hs.iput List.mem_cons_self
  rwa [List.erase_cons_head] at hstep

/-- `itrunc` frees the blocks of a file that is not a directory. -/
theorem ITable.itrunc (hs : ITable s h) (hdir : (s.ino ip).type ≠ .dir) :
    IStep s (Xv6.itrunc ip s) h := by
  have hsame : s.SameFiles (Xv6.itrunc ip s) := ⟨rfl, rfl, rfl, rfl, rfl⟩
  have hmod := hs.modify (i := (s.itable ip).inum)
    (f := fun d => { d with ents := [], nblocks := 0, indirect := false }) id
  refine ⟨⟨hmod.ref_eq, hmod.live, hmod.unique, hmod.held_alloc, hmod.free_valid⟩, fun d => ?_, hsame⟩
  by_cases hdi : d = (s.itable ip).inum
  · subst hdi
    exact .of_not_dir (by simpa [Xv6.itrunc] using hdir)
  · exact .of_eq (by simp [Xv6.itrunc, hdi]) (by simp [Xv6.itrunc, hdi])

end Table

/-! ## Entries -/

/-- The entries after `dirlink` writes `de`: into the first free slot, or at the end. -/
def dirInsert (ents : List Dirent) (de : Dirent) : List Dirent :=
  if emptySlot ents < ents.length then ents.set (emptySlot ents) de else ents ++ [de]

theorem emptySlot_le (ents : List Dirent) : emptySlot ents ≤ ents.length := by
  induction ents with
  | nil => simp [emptySlot]
  | cons de ents ih =>
    unfold emptySlot
    split <;> simp; omega

/-- A well-formed directory's `.` and `..` are used, so the first free slot comes after them. -/
theorem two_le_emptySlot {d q : Nat} {ents : List Dirent} (hwf : WfDir d q ents) :
    2 ≤ emptySlot ents := by
  obtain ⟨hd, hq, htake, -⟩ := hwf
  match ents, htake with
  | a :: b :: rest, htake =>
    simp only [List.take_succ_cons, List.take_zero, List.cons.injEq, and_true] at htake
    obtain ⟨rfl, rfl⟩ := htake
    simp [emptySlot, hd, hq]

/-- A list keeps a relation between its elements when one is replaced by an element related
both ways to all of them. -/
theorem pairwise_set {R : α → α → Prop} {l : List α} {k : Nat} {x : α} (hl : l.Pairwise R)
    (hx : ∀ a ∈ l, R a x ∧ R x a) : (l.set k x).Pairwise R := by
  rw [List.pairwise_iff_getElem] at hl ⊢
  intro i j hi hj hij
  simp only [List.getElem_set]
  have hmem : ∀ m (hm : m < l.length), l[m] ∈ l := fun m hm => List.getElem_mem hm
  simp only [List.length_set] at hi hj
  split_ifs with hki hkj hkj
  · omega
  · exact (hx _ (hmem j hj)).2
  · exact (hx _ (hmem i hi)).1
  · exact hl i j hi hj hij

/-- Writing an entry whose name no used entry has keeps a directory well formed. -/
theorem WfDir.insert {d q : Nat} {ents : List Dirent} {de : Dirent} (hwf : WfDir d q ents)
    (hnew : ∀ e ∈ ents, e.inum ≠ 0 → e.name ≠ de.name) : WfDir d q (dirInsert ents de) := by
  have h2 := two_le_emptySlot hwf
  obtain ⟨hd, hq, htake, hpair⟩ := hwf
  have hdist : ∀ e ∈ ents, Dirent.Distinct e de ∧ Dirent.Distinct de e :=
    fun e he => ⟨fun he0 _ => hnew e he he0, fun _ he0 => Ne.symm (hnew e he he0)⟩
  unfold dirInsert
  split
  · refine ⟨hd, hq, by rw [List.take_set_of_le h2, htake], pairwise_set hpair hdist⟩
  · next hfull =>
    have hlen : 2 ≤ ents.length := by have := emptySlot_le ents; omega
    refine ⟨hd, hq, by rw [List.take_append_of_le_length hlen, htake], ?_⟩
    rw [List.pairwise_append]
    exact ⟨hpair, List.pairwise_singleton _ _, fun e he b hb => by
      rw [List.mem_singleton.mp hb]
      exact (hdist e he).1⟩

/-- Clearing an entry other than `.` and `..` keeps a directory well formed. -/
theorem WfDir.clear {d q off : Nat} {ents : List Dirent} (hwf : WfDir d q ents) (hoff : 2 ≤ off) :
    WfDir d q (ents.set off Dirent.empty) := by
  obtain ⟨hd, hq, htake, hpair⟩ := hwf
  refine ⟨hd, hq, by rw [List.take_set_of_le hoff, htake], pairwise_set hpair fun e _ => ?_⟩
  exact ⟨fun _ h => absurd rfl h, fun h => absurd rfl h⟩

/-- `dirlookup` finds nothing exactly when no used entry has the name. -/
theorem dirlookupLoop_eq_none {name : List Char} {ents : List Dirent} {k : Nat} :
    dirlookupLoop name k ents = none ↔ ∀ e ∈ ents, e.inum ≠ 0 → e.name ≠ name := by
  induction ents generalizing k with
  | nil => simp [dirlookupLoop]
  | cons de ents ih =>
    unfold dirlookupLoop
    split
    · next hde =>
      simp only [reduceCtorEq, false_iff, not_forall]
      exact ⟨de, List.mem_cons_self, hde.1, not_not.mpr hde.2⟩
    · next hde =>
      rw [ih, List.forall_mem_cons]
      exact ⟨fun h => ⟨fun h0 hn => hde ⟨h0, hn⟩, h⟩, fun h => h.2⟩

theorem dirlookup_eq_none {dp : Inode} {name : List Char} :
    dirlookup dp name = none ↔ ∀ e ∈ dp.ents, e.inum ≠ 0 → e.name ≠ name :=
  dirlookupLoop_eq_none

/-! ## `dirlink` -/

section Dirlink

variable {s : Fs} {h : List (Fin NINODE)} {dp : Fin NINODE} {inum : Nat} {name : List Char}

/-- `dirlink` of a name that is not there: the entry goes in when the directory can take it
(`ok`), and besides that only block fields change. -/
theorem dirlink_of_none (hnone : dirlookup (s.ino dp) name = none) :
    ∃ u ok, s.SameShape u ∧ dirlink dp name inum s =
      .ok (if ok then
        u.modifyAt dp fun d => { d with ents := dirInsert (s.ino dp).ents ⟨inum, name.take DIRSIZ⟩ }
      else u, ok) := by
  unfold dirlink
  rw [hnone]
  dsimp only
  by_cases hslot : emptySlot (s.ino dp).ents < (s.ino dp).ents.length
  · rw [if_pos hslot]
    rw [Fs.ino_eq] at hslot
    exact ⟨s, true, .refl s, by simp [dirInsert, hslot]⟩
  rw [if_neg hslot]
  by_cases hbig : MAXFILE * BSIZE < (emptySlot (s.ino dp).ents + 1) * direntSize
  · rw [if_pos hbig]
    exact ⟨s, false, .refl s, rfl⟩
  rw [if_neg hbig]
  -- a new slot at the end, in a block `bmap` may have had to get
  generalize hr : (if emptySlot (s.ino dp).ents * direntSize % BSIZE = 0 then
    bmapNew dp (emptySlot (s.ino dp).ents * direntSize / BSIZE) s else (s, true)) = r
  have hrs : s.SameShape r.1 := by
    rw [← hr]
    split
    · exact bmapNew_sameShape _ _ _
    · exact .refl s
  obtain ⟨u, ok⟩ := r
  refine ⟨u, ok, hrs, ?_⟩
  rw [Fs.ino_eq] at hslot
  cases ok <;> simp [dirInsert, hslot]

/-- What `dirlink` can do: refuse a name that is there, after `dirlookup` took and `iput` gave
back a reference to its inode, or write the entry, or fail to extend the directory. -/
theorem dirlink_cases (dp : Fin NINODE) (name : List Char) (inum : Nat) (s : Fs) :
    (∃ off i, dirlookup (s.ino dp) name = some (off, i) ∧
        dirlink dp name inum s = (do
          let (ip, s) ← iget (s.itable dp).dev i s
          return (iput ip s, false))) ∨
      (dirlookup (s.ino dp) name = none ∧ ∃ u ok, s.SameShape u ∧ dirlink dp name inum s =
        .ok (if ok then
          u.modifyAt dp fun d => { d with ents := dirInsert (s.ino dp).ents ⟨inum, name.take DIRSIZ⟩ }
        else u, ok)) := by
  cases hl : dirlookup (s.ino dp) name with
  | some r =>
    refine .inl ⟨r.1, r.2, rfl, ?_⟩
    unfold dirlink
    rw [hl]
  | none => exact .inr ⟨rfl, dirlink_of_none hl⟩

/-- `dirlink` into an entry the call holds keeps the table exact and every directory as it was
made, for a name of at most `DIRSIZ` characters; the entries with references keep their
inodes. -/
theorem ITable.dirlink {r : Fs × Bool} (hs : ITable s h) (hdp : 0 < (s.itable dp).ref)
    (hname : name.length ≤ DIRSIZ) (hrun : Xv6.dirlink dp name inum s = .ok r) :
    IStep s r.1 h ∧ ∀ jp, 0 < (s.itable jp).ref → (r.1.itable jp).inum = (s.itable jp).inum := by
  rcases dirlink_cases dp name inum s with ⟨off, i, hl, hd⟩ | ⟨hnone, u, ok, hu, hd⟩
  · -- the name is there: the reference `dirlookup` takes goes back
    rw [hd] at hrun
    obtain ⟨⟨ip, t⟩, hg, hrun⟩ := Loop.bind_eq_ok.mp hrun
    obtain rfl := Except.ok.inj hrun
    obtain ⟨hstep, -, -, hkeep⟩ := hs.iget (hs.live dp hdp).1 (dirlookup_spec hl).2.2 hg
    refine ⟨hstep.trans hstep.itable.iput_head, fun jp hjp => ?_⟩
    simp only [iput_itable_inum]
    exact hkeep jp hjp
  · rw [hd] at hrun
    obtain rfl := Except.ok.inj hrun
    have hstep := IStep.of_sameShape hs hu
    cases ok
    · exact ⟨hstep, fun jp _ => by simp [hu.itable]⟩
    rw [if_pos rfl]
    dsimp only
    refine ⟨hstep.trans ⟨hstep.itable.modifyAt id, fun d => ?_, ⟨rfl, rfl, rfl, rfl, rfl⟩⟩,
      fun jp _ => by simp [hu.itable]⟩
    by_cases hdd : d = (s.itable dp).inum
    · subst hdd
      -- the entry goes into a directory that has no used entry with its name
      intro hdir
      simp only [Fs.modifyAt_eq, hu.itable, Fs.modify_inode, Function.update_self] at hdir ⊢
      refine ⟨hdir, fun q hq => ?_⟩
      rw [hu.ents] at hq
      refine hq.insert fun e he he0 => ?_
      rw [List.take_of_length_le hname]
      exact dirlookup_eq_none.mp hnone e he he0
    · exact .of_eq (by simp [hu.itable, hdd]) (by simp [hu.itable, hdd])

end Dirlink

/-! ## Paths -/

/-- `skipelem` gives an element of at most `DIRSIZ` characters and a shorter rest. -/
theorem skipelem_spec {path name rest : List Char} (h : skipelem path = some (name, rest)) :
    name.length ≤ DIRSIZ ∧ rest.length < path.length := by
  unfold skipelem at h
  have hle := List.length_dropWhile_le (· == '/') path
  have hhead := List.head_dropWhile_not (· == '/') (l := path)
  generalize path.dropWhile (· == '/') = p at h hle hhead
  cases p with
  | nil => cases h
  | cons c cs =>
    obtain ⟨rfl, rfl⟩ := Prod.mk.inj (Option.some.inj h)
    refine ⟨by simp, ?_⟩
    -- the element's first character is not a slash, so it goes with the element
    have hc : (c != '/') = true := by simpa using hhead (List.cons_ne_nil c cs)
    have h1 := List.length_dropWhile_le (· == '/') ((c :: cs).dropWhile (· != '/'))
    have h2 := List.length_dropWhile_le (· != '/') cs
    rw [List.dropWhile_cons_of_pos (p := fun x => x != ('/' : Char)) hc] at h1 ⊢
    simp only [List.length_cons] at hle
    omega

/-- What `namex`'s loop hands back from `s` holding `h`: the reference to the entry it found
with the last element (for `nameiparent` a directory), or nothing. -/
def NamexOk (parent : Bool) (s : Fs) (h : List (Fin NINODE)) (r : Option (Fin NINODE × List Char))
    (t : Fs) : Prop :=
  IStep s t ((r.map Prod.fst).toList ++ h) ∧
    ∀ ip name, r = some (ip, name) → name.length ≤ DIRSIZ ∧ (parent = true → (t.ino ip).type = .dir)

theorem NamexOk.of_step {parent : Bool} {s u t : Fs} {h h₀ : List (Fin NINODE)}
    {r : Option (Fin NINODE × List Char)} (h₁ : IStep s u h₀) (h₂ : NamexOk parent u h r t) :
    NamexOk parent s h r t :=
  ⟨h₁.trans h₂.1, h₂.2⟩

/-- The loop of `namex`, holding the reference to `ip`, with more fuel than characters left. -/
theorem namexLoop_ok {parent : Bool} {fuel : Nat} {ip : Fin NINODE} {path name : List Char} {s t : Fs}
    {h : List (Fin NINODE)} {r : Option (Fin NINODE × List Char)} (hs : ITable s (ip :: h))
    (hname : name.length ≤ DIRSIZ) (hfuel : path.length < fuel)
    (hrun : namexLoop parent fuel ip path name s = .ok (r, t)) : NamexOk parent s h r t := by
  induction fuel generalizing ip path name s with
  | zero => omega
  | succ fuel ih =>
    unfold namexLoop at hrun
    cases hp : skipelem path with
    | none =>
      rw [hp] at hrun
      cases parent
      · -- `namei` ends on the entry it holds
        obtain ⟨rfl, rfl⟩ := Prod.mk.inj (Except.ok.inj hrun)
        refine ⟨(IStep.refl hs), fun ip' name' he => ?_⟩
        obtain ⟨rfl, rfl⟩ := Prod.mk.inj (Option.some.inj he)
        exact ⟨hname, fun h => absurd h (by decide)⟩
      · obtain ⟨rfl, rfl⟩ := Prod.mk.inj (Except.ok.inj hrun)
        exact ⟨hs.iput_head, fun _ _ he => absurd he (by simp)⟩
    | some e =>
      obtain ⟨name', path'⟩ := e
      obtain ⟨hname', hlt⟩ := skipelem_spec hp
      rw [hp] at hrun
      obtain ⟨s₁, hl, hrun⟩ := Loop.bind_eq_ok.mp hrun
      obtain ⟨hstep₁, -, -, -, hframe⟩ := hs.ilock hl
      have hs₁ := hstep₁.itable
      split_ifs at hrun with hdir hlast
      · obtain ⟨rfl, rfl⟩ := Prod.mk.inj (Except.ok.inj hrun)
        exact ⟨hstep₁.trans hs₁.iput_head, fun _ _ he => absurd he (by simp)⟩
      · -- `nameiparent` stops at the directory holding the last element
        obtain ⟨rfl, rfl⟩ := Prod.mk.inj (Except.ok.inj hrun)
        refine ⟨hstep₁, fun ip' name'' he => ?_⟩
        obtain ⟨rfl, rfl⟩ := Prod.mk.inj (Option.some.inj he)
        exact ⟨hname', fun _ => not_not.mp hdir⟩
      · cases hlook : dirlookup (s₁.ino ip) name' with
        | none =>
          rw [hlook] at hrun
          obtain ⟨rfl, rfl⟩ := Prod.mk.inj (Except.ok.inj hrun)
          exact ⟨hstep₁.trans hs₁.iput_head, fun _ _ he => absurd he (by simp)⟩
        | some e =>
          obtain ⟨off, next⟩ := e
          rw [hlook] at hrun
          obtain ⟨⟨nip, s₂⟩, hg, hrun⟩ := Loop.bind_eq_ok.mp hrun
          -- `dirlookup` takes the reference to `next`, then the one to `ip` goes back
          have hlive := hs₁.live ip (hs₁.one_le_ref List.mem_cons_self)
          obtain ⟨hstep₂, -, -, -⟩ := hs₁.iget hlive.1 (dirlookup_spec hlook).2.2 hg
          have hstep₃ := (hstep₂.itable.perm (List.Perm.swap ip nip h)).iput_head
          exact NamexOk.of_step (hstep₁.trans (hstep₂.trans hstep₃))
            (ih hstep₃.itable hname' (by omega) hrun)

/-- `namex` in process `p`, which has a current directory. -/
theorem namex_ok {p : Fin NPROC} {path : List Char} {parent : Bool} {s t : Fs}
    {h : List (Fin NINODE)} {r : Option (Fin NINODE × List Char)} (hs : ITable s h)
    (hrun : namex p path parent s = .ok (r, t)) : NamexOk parent s h r t := by
  unfold namex at hrun
  dsimp only at hrun
  -- the loop starts from a reference to the root or to the current directory
  obtain ⟨ip, s₁, hstep, hrun⟩ : ∃ ip s₁, IStep s s₁ (ip :: h) ∧
      namexLoop parent (path.length + 1) ip path [] s₁ = .ok (r, t) := by
    split at hrun
    · obtain ⟨⟨ip, s₁⟩, hg, hrun⟩ := Loop.bind_eq_ok.mp hrun
      exact ⟨ip, s₁, (hs.iget rfl (by decide) hg).1, hrun⟩
    · -- the current directory holds its entry
      obtain ⟨c, hc, hrun⟩ := Loop.bind_eq_ok.mp hrun
      have hheld := one_le_inodeRefs_cwd (Fs.curdir_eq_ok.mp hc)
      exact ⟨c, _, hs.idup (hs.one_le_ref_of_held hheld), hrun⟩
  exact NamexOk.of_step hstep (namexLoop_ok hstep.itable (by simp) (by omega) hrun)

/-- `namei` in process `p`: the reference to the entry it found, or nothing. -/
theorem namei_ok {p : Fin NPROC} {path : List Char} {s t : Fs} {h : List (Fin NINODE)}
    {r : Option (Fin NINODE)} (hs : ITable s h) (hrun : namei p path s = .ok (r, t)) :
    IStep s t (r.toList ++ h) := by
  unfold namei at hrun
  obtain ⟨⟨r₀, t₀⟩, hn, hrun⟩ := Loop.bind_eq_ok.mp hrun
  obtain ⟨rfl, rfl⟩ := Prod.mk.inj (Except.ok.inj hrun)
  exact (namex_ok hs hn).1

/-! ## `ialloc` and `create` -/

/-- `ialloc` takes the first free inode from `1` on, gives it its type, and takes a reference
to it with `iget`. -/
theorem ialloc_eq_some {dev : Nat} {type : IType} {s t : Fs} {ip : Fin NINODE}
    (h : ialloc dev type s = .ok (some (ip, t))) :
    ∃ i, i ≠ 0 ∧ (s.inode i).type = .free ∧
      iget dev i (s.modify i fun _ => { Inode.zero with type := type }) = .ok (ip, t) := by
  unfold ialloc at h
  split at h
  · cases h
  · next j hj =>
    obtain ⟨⟨ip', t'⟩, hg, h⟩ := Loop.bind_eq_ok.mp h
    obtain ⟨rfl, rfl⟩ := Prod.mk.inj (Option.some.inj (Except.ok.inj h))
    have hmem := List.mem_range'_1.mp (List.mem_of_find?_eq_some hj)
    exact ⟨j, by omega, by simpa using List.find?_some hj, hg⟩

/-- The inode table, the files and the types of inodes are those of `s`; entries may differ. -/
structure Fs.SameTypes (s t : Fs) : Prop where
  itable : t.itable = s.itable
  same : s.SameFiles t
  type : ∀ i, (t.inode i).type = (s.inode i).type

theorem Fs.SameTypes.trans {s t u : Fs} (h₁ : s.SameTypes t) (h₂ : t.SameTypes u) :
    s.SameTypes u :=
  ⟨h₂.itable.trans h₁.itable, h₁.same.trans h₂.same, fun i => (h₂.type i).trans (h₁.type i)⟩

theorem Fs.SameShape.sameTypes {s t : Fs} (h : s.SameShape t) : s.SameTypes t :=
  ⟨h.itable, h.same, h.type⟩

/-- `dirlink` of a name that is not there returns, and writes at most the entries of `dp`. -/
theorem dirlink_of_none_facts {s : Fs} {dp : Fin NINODE} {inum : Nat} {name : List Char}
    (hnone : dirlookup (s.ino dp) name = none) :
    ∃ r, dirlink dp name inum s = .ok r ∧ s.SameTypes r.1 ∧
      (∀ j, j ≠ (s.itable dp).inum → (r.1.inode j).ents = (s.inode j).ents) ∧
      (r.2 = true → (r.1.ino dp).ents = dirInsert (s.ino dp).ents ⟨inum, name.take DIRSIZ⟩) := by
  obtain ⟨u, ok, hu, hd⟩ := @dirlink_of_none s dp inum name hnone
  refine ⟨_, hd, ?_⟩
  cases ok
  · exact ⟨hu.sameTypes, fun j _ => hu.ents j, fun h => by simp at h⟩
  · dsimp only [if_true]
    refine ⟨hu.sameTypes.trans ⟨rfl, ⟨rfl, rfl, rfl, rfl, rfl⟩, fun i => ?_⟩, fun j hj => ?_,
      fun _ => by simp [hu.itable]⟩
    · by_cases hi : i = (u.itable dp).inum <;> simp [hi]
    · simp [hu.itable, hj, hu.ents]

/-- After `dirInsert` of a used entry whose name no used entry had, `dirlookup` finds it
where it went. -/
theorem dirlookupLoop_dirInsert {name : List Char} {inum : Nat} {ents : List Dirent} {k : Nat}
    (hnone : ∀ e ∈ ents, e.inum ≠ 0 → e.name ≠ name) (hi : inum ≠ 0) :
    dirlookupLoop name k (dirInsert ents ⟨inum, name⟩) = some (k + emptySlot ents, inum) := by
  induction ents generalizing k with
  | nil => simp [dirInsert, emptySlot, dirlookupLoop, hi]
  | cons e ents ih =>
    by_cases he : e.inum = 0
    · simp [dirInsert, emptySlot, he, dirlookupLoop, hi]
    · -- a used entry stays first and has another name
      have hins : dirInsert (e :: ents) ⟨inum, name⟩ = e :: dirInsert ents ⟨inum, name⟩ := by
        unfold dirInsert
        simp only [emptySlot, he, if_false, List.length_cons, Nat.add_lt_add_iff_right]
        split <;> simp
      have hname : e.name ≠ name := hnone e List.mem_cons_self he
      rw [hins, dirlookupLoop, if_neg (fun h => hname h.2),
        ih (fun e' he' => hnone e' (List.mem_cons_of_mem e he'))]
      simp [emptySlot, he]
      omega

section CreateNew

variable {dp ip : Fin NINODE} {name : List Char} {type : IType} {s : Fs}

/-- `.` and `..` of a new directory `ip` made in `dp`: written in order while the disk has room,
and nothing but the entries of `ip` and block fields change. -/
theorem createNew_dots (hs : ITable s [ip, dp]) (hne : (s.itable ip).inum ≠ (s.itable dp).inum)
    (hip : (s.ino ip).ents = []) {r : Fs × Bool}
    (hr : (if type = .dir then (do
        let r ← dirlink ip ['.'] (s.itable ip).inum s
        if r.2 then dirlink ip ['.', '.'] (s.itable dp).inum r.1 else pure r)
      else pure (s, true) : Except String (Fs × Bool)) = .ok r) :
    IStep s r.1 [ip, dp] ∧ s.SameTypes r.1 ∧ (r.1.ino dp).ents = (s.ino dp).ents ∧
      (r.2 = true → type = .dir →
        (r.1.ino ip).ents = [⟨(s.itable ip).inum, ['.']⟩, ⟨(s.itable dp).inum, ['.', '.']⟩]) := by
  have hlive : 0 < (s.itable ip).ref := hs.one_le_ref (by simp)
  have hip0 : (s.itable ip).inum ≠ 0 := (hs.live ip hlive).2
  split at hr
  · -- `.` goes into the empty directory
    have hnone₁ : dirlookup (s.ino ip) ['.'] = none := by rw [dirlookup, hip]; rfl
    obtain ⟨r₁, hd₁, ht₁, hother₁, hents₁⟩ :=
      @dirlink_of_none_facts s ip (s.itable ip).inum ['.'] hnone₁
    obtain ⟨hstep₁, -⟩ := hs.dirlink hlive (by decide) hd₁
    rw [hd₁, Loop.ok_bind] at hr
    split at hr
    · next hok₁ =>
      -- then `..`, after it
      have hdot : (r₁.1.ino ip).ents = [⟨(s.itable ip).inum, ['.']⟩] := by
        rw [hents₁ hok₁, hip]
        simp [dirInsert, emptySlot, DIRSIZ]
      have hnone₂ : dirlookup (r₁.1.ino ip) ['.', '.'] = none := by
        rw [dirlookup, hdot]
        simp [dirlookupLoop]
      obtain ⟨r₂, hd₂, ht₂, hother₂, hents₂⟩ :=
        @dirlink_of_none_facts r₁.1 ip (s.itable dp).inum ['.', '.'] hnone₂
      rw [hd₂] at hr
      obtain rfl := Except.ok.inj hr
      obtain ⟨hstep₂, -⟩ := hstep₁.itable.dirlink (by rw [ht₁.itable]; exact hlive) (by decide) hd₂
      refine ⟨hstep₁.trans hstep₂, ht₁.trans ht₂, ?_, ?_⟩
      · rw [Fs.ino_eq, Fs.ino_eq, ht₂.itable, ht₁.itable,
          hother₂ _ (by rw [ht₁.itable]; exact Ne.symm hne), hother₁ _ (Ne.symm hne)]
      · intro hok₂ _
        rw [hents₂ hok₂, hdot]
        simp [dirInsert, emptySlot, hip0, DIRSIZ]
    · next hok₁ =>
      obtain rfl := Except.ok.inj hr
      refine ⟨hstep₁, ht₁, ?_, fun h => absurd h hok₁⟩
      rw [Fs.ino_eq, Fs.ino_eq, ht₁.itable]
      exact hother₁ _ (Ne.symm hne)
  · next hdir =>
    obtain rfl := Except.ok.inj hr
    exact ⟨.refl hs, ⟨rfl, .refl s, fun _ => rfl⟩, rfl, fun _ h => absurd h hdir⟩

/-- The entry of `ip` in `dp`, once `.` and `..` are there. -/
theorem createNew_link (hs : ITable s [ip, dp]) (hname : name.length ≤ DIRSIZ)
    (hnone : dirlookup (s.ino dp) name = none) {r₁ r : Fs × Bool}
    (hs₁ : IStep s r₁.1 [ip, dp]) (ht₁ : s.SameTypes r₁.1)
    (hdp₁ : (r₁.1.ino dp).ents = (s.ino dp).ents) (hne : (s.itable ip).inum ≠ (s.itable dp).inum)
    (hr : (if r₁.2 = true then dirlink dp name (s.itable ip).inum r₁.1 else pure r₁ :
      Except String (Fs × Bool)) = .ok r) :
    IStep s r.1 [ip, dp] ∧ s.SameTypes r.1 ∧
      (r.2 = true → r₁.2 = true ∧ (r.1.ino ip).ents = (r₁.1.ino ip).ents ∧
        ∃ off, dirlookup (r.1.ino dp) name = some (off, (s.itable ip).inum)) := by
  have hip0 : (s.itable ip).inum ≠ 0 := (hs.live ip (hs.one_le_ref (by simp))).2
  split at hr
  · next hok₁ =>
    have hnone₁ : dirlookup (r₁.1.ino dp) name = none := by rwa [dirlookup, hdp₁]
    obtain ⟨r₂, hd₂, ht₂, hother₂, hents₂⟩ :=
      @dirlink_of_none_facts _ dp (s.itable ip).inum name hnone₁
    rw [hd₂] at hr
    obtain rfl := Except.ok.inj hr
    obtain ⟨hstep₂, -⟩ := hs₁.itable.dirlink
      (by rw [ht₁.itable]; exact hs.one_le_ref (by simp)) hname hd₂
    refine ⟨hs₁.trans hstep₂, ht₁.trans ht₂, fun hok => ⟨hok₁, ?_, ?_⟩⟩
    · rw [Fs.ino_eq, Fs.ino_eq, ht₂.itable]
      exact hother₂ _ (by rw [ht₁.itable]; exact hne)
    -- the new entry is the one `dirlookup` finds
    · refine ⟨0 + emptySlot (r₁.1.ino dp).ents, ?_⟩
      rw [dirlookup, hents₂ hok, List.take_of_length_le hname]
      exact dirlookupLoop_dirInsert (dirlookup_eq_none.mp hnone₁) hip0
  · next hok₁ =>
    obtain rfl := Except.ok.inj hr
    exact ⟨hs₁, ht₁, fun h => absurd h hok₁⟩

/-- `create`'s part after `ialloc`: on success `ip` keeps its type, a directory has `.` and
`..`, and `dp` has the entry; on failure `ip` is freed, since the call held its only
reference. Both entries keep their inodes. -/
theorem createNew_spec {major minor : Int} (hs : ITable s [ip, dp]) (hname : name.length ≤ DIRSIZ)
    (hne : (s.itable ip).inum ≠ (s.itable dp).inum) (href : (s.itable ip).ref = 1)
    (hvalid : (s.itable ip).valid = true) (hip : (s.ino ip).ents = [])
    (hnone : dirlookup (s.ino dp) name = none) {r : Fs × Bool}
    (hr : createNew dp name ip type major minor s = .ok r) :
    IStep s r.1 (if r.2 then [ip, dp] else [dp]) ∧
      (r.1.itable ip).inum = (s.itable ip).inum ∧ (r.1.itable dp).inum = (s.itable dp).inum ∧
      (r.2 = true → (r.1.ino ip).type = (s.ino ip).type ∧
        (type = .dir →
          (r.1.ino ip).ents = [⟨(s.itable ip).inum, ['.']⟩, ⟨(s.itable dp).inum, ['.', '.']⟩]) ∧
        ∃ off, dirlookup (r.1.ino dp) name = some (off, (s.itable ip).inum)) ∧
      (r.2 = false → (r.1.ino ip).type = .free) := by
  unfold createNew at hr
  obtain ⟨r₁, hr₁, hr⟩ := Loop.bind_eq_ok.mp hr
  obtain ⟨r₂, hr₂, hr⟩ := Loop.bind_eq_ok.mp hr
  -- `ip` gets its fields and one link
  generalize hs₀ : s.modifyAt ip (fun d =>
    { d with major := toShort major, minor := toShort minor, nlink := 1 }) = s₀ at hr₁ hr₂
  have h₀ : s.SameShape s₀ := hs₀ ▸ .modifyAt rfl rfl
  have hstep₀ := IStep.of_sameShape hs h₀
  obtain ⟨hstep₁, ht₁, hdp₁, hdots⟩ := createNew_dots hstep₀.itable (by rwa [h₀.itable])
    (by rw [h₀.ino_ents]; exact hip) hr₁
  obtain ⟨hstep₂, ht₂, hlink⟩ := createNew_link hstep₀.itable hname
    (by rw [dirlookup, h₀.ino_ents]; exact hnone) hstep₁ ht₁ hdp₁ (by rwa [h₀.itable]) hr₂
  have ht₂' := h₀.sameTypes.trans ht₂
  rw [h₀.itable] at hdots hlink
  split at hr
  · next hok =>
    obtain rfl := Except.ok.inj hr
    obtain ⟨hok₁, hip₂, off, hl⟩ := hlink hok
    dsimp only
    -- a directory's `..` is one more link of `dp`
    split
    · next hdir =>
      have hsh : r₂.1.SameShape (r₂.1.modifyAt dp fun d => { d with nlink := d.nlink + 1 }) :=
        .modifyAt rfl rfl
      refine ⟨(hstep₀.trans hstep₂).trans (IStep.of_sameShape hstep₂.itable hsh),
        by rw [hsh.itable, ht₂'.itable], by rw [hsh.itable, ht₂'.itable],
        fun _ => ⟨?_, fun _ => ?_, off, ?_⟩, fun h => absurd h (by simp)⟩
      · rw [hsh.ino_type, Fs.ino_eq, Fs.ino_eq, ht₂'.type, ht₂'.itable]
      · rw [hsh.ino_ents, hip₂]
        exact hdots hok₁ hdir
      · rw [dirlookup, hsh.ino_ents]
        exact hl
    · next hdir =>
      refine ⟨hstep₀.trans hstep₂, by rw [ht₂'.itable], by rw [ht₂'.itable],
        fun _ => ⟨?_, fun h => absurd h hdir, off, hl⟩, fun h => absurd h (by simp)⟩
      rw [Fs.ino_eq, Fs.ino_eq, ht₂'.type, ht₂'.itable]
  · next hok =>
    obtain rfl := Except.ok.inj hr
    dsimp only
    -- the call held the only reference to `ip`, which has no link left: it is freed
    have hmod : r₂.1.SameShape (r₂.1.modifyAt ip fun d => { d with nlink := 0 }) :=
      .modifyAt rfl rfl
    have hstep₃ := IStep.of_sameShape hstep₂.itable hmod
    have hit : (r₂.1.modifyAt ip fun d => { d with nlink := 0 }).itable = s.itable := by
      rw [hmod.itable, ht₂'.itable]
    have hfree : ((r₂.1.modifyAt ip fun d => { d with nlink := 0 }).itable ip).ref = 1 ∧
        ((r₂.1.modifyAt ip fun d => { d with nlink := 0 }).itable ip).valid = true ∧
        ((r₂.1.modifyAt ip fun d => { d with nlink := 0 }).ino ip).nlink = 0 :=
      ⟨by rw [hit, href], by rw [hit, hvalid], by simp⟩
    refine ⟨(hstep₀.trans hstep₂).trans (hstep₃.trans hstep₃.itable.iput_head),
      by simp [ht₂'.itable], by simp [ht₂'.itable], fun h => absurd h (by decide), fun _ => ?_⟩
    rw [iput_of_free hfree]
    simp [itrunc]

end CreateNew

/-! ## Directories a call makes -/

/-- The directory `d` that a call made in `dp`: `.` and `..` name `d` and `dp`, `dp` was a
directory before the call and, while it still is one, has an entry naming `d`. -/
def NewDir (s t : Fs) (d : Nat) : Prop :=
  ∃ dp, WfDir d dp (t.inode d).ents ∧ (s.inode dp).type = .dir ∧
    ((t.inode dp).type = .dir → ∃ name off, dirlookup (t.inode dp) name = some (off, d))

/-- Every inode is kept, or is a directory the call made. -/
def DirStep (s t : Fs) : Prop := ∀ d, DirKept s t d ∨ NewDir s t d

section DirStep

variable {s t u : Fs}

theorem DirsKept.dirStep (h : DirsKept s t) : DirStep s t := fun d => .inl (h d)

theorem DirInv.of_step (hs : DirInv s) (h : DirStep s t) : DirInv t := by
  intro d hd
  rcases h d with hk | ⟨dp, hwf, -, -⟩
  · obtain ⟨hsd, hq⟩ := hk hd
    obtain ⟨q, hwf⟩ := hs d hsd
    exact ⟨q, hq q hwf⟩
  · exact ⟨dp, hwf⟩

/-- `iput` changes at most one inode, and only by freeing it. -/
theorem iput_inode_or_free (ip : Fin NINODE) (j : Nat) (s : Fs) :
    (iput ip s).inode j = s.inode j ∨ ((iput ip s).inode j).type = .free := by
  by_cases hj : j = (s.itable ip).inum
  · by_cases hfree : (s.itable ip).ref = 1 ∧ (s.itable ip).valid = true ∧ (s.ino ip).nlink = 0
    · subst hj
      rw [iput_of_free hfree]
      exact .inr (by simp [itrunc])
    · rw [iput_of_keep hfree]
      exact .inl rfl
  · exact .inl (iput_inode_of_ne hj)

/-- After `t` the call only freed inodes. -/
theorem DirStep.of_free (h : DirStep s t)
    (hu : ∀ j, u.inode j = t.inode j ∨ (u.inode j).type = .free) : DirStep s u := by
  have hkept : DirsKept t u := fun d => by
    rcases hu d with he | hf
    · exact .of_eq (by rw [he]) (by rw [he])
    · exact .of_not_dir (by rw [hf]; decide)
  intro d
  rcases h d with hk | ⟨dp, hwf, hsdp, hlook⟩
  · exact .inl (hk.trans (hkept d))
  · rcases hu d with he | hf
    · refine .inr ⟨dp, by rwa [he], hsdp, fun hdir => ?_⟩
      rcases hu dp with he' | hf'
      · rw [he'] at hdir ⊢
        exact hlook hdir
      · rw [hf'] at hdir
        cases hdir
    · exact .inl (.of_not_dir (by rw [hf]; decide))

end DirStep

/-! ## `create` -/

/-- `ialloc` and `ilock` for `create`, which holds only `dp`: the free inode `i` gets its type,
and the entry `iget` gives it is one without references, recycled, since no entry with a
reference holds a free inode. The call then holds the entry's only reference. -/
theorem ialloc_ilock {type : IType} {dp ip : Fin NINODE} {s s₁ t : Fs}
    (hs : ITable s [dp]) (htype : type ≠ .free) (hdp : (s.ino dp).type ≠ .free)
    (ha : ialloc (s.itable dp).dev type s = .ok (some (ip, s₁))) (hl : ilock ip s₁ = .ok t) :
    ∃ i, i ≠ 0 ∧ (s.inode i).type = .free ∧ ITable t [ip, dp] ∧ s.SameFiles t ∧
      t.inode = Function.update s.inode i { Inode.zero with type := type } ∧
      (t.itable ip).inum = i ∧ (t.itable dp).inum = (s.itable dp).inum ∧
      (t.itable ip).ref = 1 ∧ (t.itable ip).valid = true := by
  obtain ⟨i, hi0, hfree, hg⟩ := ialloc_eq_some ha
  have hpos : 0 < (s.itable dp).ref := hs.one_le_ref (by simp)
  have hdpi : (s.itable dp).inum ≠ i := fun h => hdp (by rw [Fs.ino_eq, h, hfree])
  -- typing a free inode frees nothing
  have hs₀ : ITable (s.modify i fun _ => { Inode.zero with type := type }) [dp] :=
    hs.modify fun h => absurd h htype
  -- the entries with a reference hold allocated inodes, or `dp`'s
  have hnone : ∀ jp, 0 < (s.itable jp).ref → (s.itable jp).inum ≠ i := by
    intro jp hjp heq
    by_cases hj : jp = dp
    · exact hdpi (hj ▸ heq)
    · have hheld : 0 < inodeRefs s jp := by
        have := hs.ref_eq jp
        simp [Ne.symm hj] at this
        omega
      exact hs.held_alloc jp hheld (by rw [Fs.ino_eq, heq, hfree])
  obtain ⟨hstep₁, hinode₁, hinum₁, hkeep₁⟩ := hs₀.iget (hs.live dp hpos).1 hi0 hg
  obtain ⟨hstep₂, -, hvalid₂, hinode₂, hframe₂⟩ := hstep₁.itable.ilock hl
  have href : (s₁.itable ip).ref = 1 := by
    rcases iget_ok hg with ⟨hp, -, hinum, -⟩ | ⟨-, -, rfl⟩
    · exact absurd hinum (hnone ip hp)
    · simp
  refine ⟨i, hi0, hfree, hstep₂.itable, ?_, ?_, by rw [(hframe₂ ip).1, hinum₁],
    by rw [(hframe₂ dp).1, hkeep₁ dp hpos]; rfl, by rw [(hframe₂ ip).2, href], hvalid₂⟩
  · exact (⟨rfl, rfl, rfl, rfl, rfl⟩ : s.SameFiles (s.modify i _)).trans
      (hstep₁.same.trans hstep₂.same)
  · rw [hinode₂, hinode₁]
    rfl

/-- `create` from a state where the call holds nothing: it hands back the reference to an
allocated inode or nothing, keeps every directory, and a directory it makes is made in the
directory `nameiparent` found. -/
theorem create_spec {p : Fin NPROC} {path : List Char} {type : IType} {major minor : Int}
    {s t : Fs} {r : Option (Fin NINODE)} (hs : ITable s []) (htype : type ≠ .free)
    (hrun : create p path type major minor s = .ok (r, t)) :
    ITable t r.toList ∧ s.SameFiles t ∧ (∀ ip, r = some ip → (t.ino ip).type ≠ .free) ∧
      (type ≠ .dir → DirsKept s t) ∧ DirStep s t := by
  unfold create at hrun
  obtain ⟨⟨r₀, s₁⟩, hn, hrun⟩ := Loop.bind_eq_ok.mp hrun
  obtain ⟨hstep₁, hparent⟩ := namex_ok hs hn
  rw [List.append_nil] at hstep₁
  dsimp only at hrun
  cases r₀ with
  | none =>
    obtain ⟨rfl, rfl⟩ := Prod.mk.inj (Except.ok.inj hrun)
    exact ⟨hstep₁.itable, hstep₁.same, fun _ h => absurd h (by simp), fun _ => hstep₁.kept,
      hstep₁.kept.dirStep⟩
  | some e =>
    obtain ⟨dp, name⟩ := e
    obtain ⟨hname, hdir₁⟩ := hparent dp name rfl
    simp only [Option.map_some, Option.toList_some] at hstep₁
    obtain ⟨s₂, hl₂, hrun⟩ := Loop.bind_eq_ok.mp hrun
    obtain ⟨hstep₂, -, -, hinode₂, hframe₂⟩ := hstep₁.itable.ilock hl₂
    -- `dp` holds the directory `q` throughout
    obtain ⟨q, hq⟩ : ∃ q, (s₂.itable dp).inum = q := ⟨_, rfl⟩
    have hq₁ : (s₁.itable dp).inum = q := by rw [← hq, (hframe₂ dp).1]
    have hdir₂ : (s₂.inode q).type = .dir := by rw [hinode₂, ← hq₁]; exact hdir₁ rfl
    have hsdir : (s.inode q).type = .dir := (hstep₁.kept q (by rw [← hq₁]; exact hdir₁ rfl)).1
    have hpre := hstep₁.trans hstep₂
    have hdppos : 0 < (s₂.itable dp).ref := hpre.itable.one_le_ref (by simp)
    cases hl : dirlookup (s₂.ino dp) name with
    | some e =>
      -- the name is there: `open` takes an existing file, everything else is refused
      obtain ⟨off, i⟩ := e
      rw [hl] at hrun
      obtain ⟨⟨ip, s₃⟩, hg, hrun⟩ := Loop.bind_eq_ok.mp hrun
      obtain ⟨s₄, hl₄, hrun⟩ := Loop.bind_eq_ok.mp hrun
      obtain ⟨hstep₃, -⟩ := hpre.itable.iget (hpre.itable.live dp hdppos).1 (dirlookup_spec hl).2.2 hg
      have hstep₄ := (hstep₃.itable.perm (List.Perm.swap dp ip [])).iput_head
      obtain ⟨hstep₅, hfree₅, -⟩ := hstep₄.itable.ilock hl₄
      have hlock := hpre.trans ((hstep₃.trans hstep₄).trans hstep₅)
      split_ifs at hrun
      · obtain ⟨rfl, rfl⟩ := Prod.mk.inj (Except.ok.inj hrun)
        exact ⟨hlock.itable, hlock.same, fun ip' h => by cases h; exact hfree₅,
          fun _ => hlock.kept, hlock.kept.dirStep⟩
      · obtain ⟨rfl, rfl⟩ := Prod.mk.inj (Except.ok.inj hrun)
        have hput := hlock.trans hlock.itable.iput_head
        exact ⟨hput.itable, hput.same, fun _ h => absurd h (by simp), fun _ => hput.kept,
          hput.kept.dirStep⟩
    | none =>
      rw [hl] at hrun
      obtain ⟨a, ha, hrun⟩ := Loop.bind_eq_ok.mp hrun
      cases a with
      | none =>
        obtain ⟨rfl, rfl⟩ := Prod.mk.inj (Except.ok.inj hrun)
        have hput := hpre.trans hpre.itable.iput_head
        exact ⟨hput.itable, hput.same, fun _ h => absurd h (by simp), fun _ => hput.kept,
          hput.kept.dirStep⟩
      | some e =>
        obtain ⟨ip, s₃⟩ := e
        obtain ⟨s₄, hl₄, hrun⟩ := Loop.bind_eq_ok.mp hrun
        obtain ⟨r, hcn, hrun⟩ := Loop.bind_eq_ok.mp hrun
        obtain ⟨rfl, rfl⟩ := Prod.mk.inj (Except.ok.inj hrun)
        obtain ⟨i, hi0, hifree, hs₄, hsame₄, hinode₄, hip₄, hdp₄, href, hvalid⟩ :=
          ialloc_ilock hpre.itable htype (by rw [Fs.ino_eq, hq, hdir₂]; decide) ha hl₄
        have hiq : i ≠ q := fun h => by rw [h, hdir₂] at hifree; cases hifree
        have hdp₄' : (s₄.itable dp).inum = q := hdp₄.trans hq
        obtain ⟨hstep₅, hipr, hdpr, hok, hfail⟩ := createNew_spec hs₄ hname
          (by rw [hip₄, hdp₄']; exact hiq) href hvalid
          (by simp [hinode₄, hip₄, Inode.zero])
          (by rwa [Fs.ino_eq, hinode₄, hdp₄', Function.update_of_ne (Ne.symm hiq), ← hq]) hcn
        -- `dp` goes back last
        have hput : IStep r.1 (iput dp r.1) (if r.2 then some ip else none).toList := by
          cases hr2 : r.2
          · rw [hr2] at hstep₅
            exact hstep₅.itable.iput_head
          · rw [hr2] at hstep₅
            simpa using (hstep₅.itable.perm (List.Perm.swap dp ip [])).iput_head
        -- every inode but `i` is kept
        have hkept : ∀ d, d ≠ i → DirKept s (iput dp r.1) d := by
          intro d hd
          have hmod : DirKept s₂ s₄ d :=
            .of_eq (by simp [hinode₄, hd]) (by simp [hinode₄, hd])
          exact ((hpre.kept d).trans hmod).trans ((hstep₅.kept d).trans (hput.kept d))
        -- the inode `i` after the call is the one `ip` holds
        have hti : (iput dp r.1).inode i = r.1.ino ip := by
          rw [iput_inode_of_ne (by rw [hdpr, hdp₄']; exact hiq), Fs.ino_eq, hipr, hip₄]
        have htype₄ : (s₄.ino ip).type = type := by simp [hinode₄, hip₄]
        -- `i` after the call: of its type when `create` succeeded, free when it failed
        have hnot : r.2 = false → DirKept s (iput dp r.1) i := fun h =>
          .of_not_dir (by rw [hti, hfail h]; decide)
        refine ⟨hput.itable, hpre.same.trans (hsame₄.trans (hstep₅.same.trans hput.same)), ?_, ?_, ?_⟩
        · intro ip' h
          cases hr2 : r.2 <;> rw [hr2] at h <;> cases h
          rw [Fs.ino_eq, iput_itable_inum, hipr, hip₄, hti, (hok hr2).1, htype₄]
          exact htype
        · intro hdir d
          by_cases hd : d = i
          · rw [hd]
            cases hr2 : r.2
            · exact hnot hr2
            · exact .of_not_dir (by rw [hti, (hok hr2).1, htype₄]; exact hdir)
          · exact hkept d hd
        · intro d
          by_cases hd : d = i
          · rw [hd]
            cases hr2 : r.2
            · exact .inl (hnot hr2)
            obtain ⟨htype₅, hdots, off, hlook⟩ := hok hr2
            by_cases hdir : type = .dir
            · -- the new directory: `.` and `..`, and its entry in `dp`
              refine .inr ⟨q, ?_, hsdir, fun hdpdir => ⟨name, off, ?_⟩⟩
              · rw [hti, hdots hdir, hip₄, hdp₄']
                refine ⟨hi0, ?_, rfl, ?_⟩
                · rw [← hq]
                  exact (hpre.itable.live dp hdppos).2
                · simp [Dirent.Distinct]
              · rcases iput_inode_or_free dp q r.1 with he | hf
                · rw [he, ← hdp₄', ← hdpr, ← Fs.ino_eq, hlook, hip₄]
                · rw [hf] at hdpdir
                  cases hdpdir
            · exact .inl (.of_not_dir (by rw [hti, htype₅, htype₄]; exact hdir))
          · exact .inl (hkept d hd)

/-! ## `sys_unlink` -/

/-- In a well-formed directory, an entry named neither `.` nor `..` comes after them. -/
theorem WfDir.two_le {d q k : Nat} {ents : List Dirent} (hwf : WfDir d q ents)
    (hk : k < ents.length) (hname : ¬(ents[k].name = ['.'] ∨ ents[k].name = ['.', '.'])) :
    2 ≤ k := by
  obtain ⟨-, -, htake, -⟩ := hwf
  match ents, htake, k, hk with
  | a :: b :: rest, htake, k, hk =>
    simp only [List.take_succ_cons, List.take_zero, List.cons.injEq, and_true] at htake
    obtain ⟨rfl, rfl⟩ := htake
    match k, hk with
    | 0, _ => simp at hname
    | 1, _ => simp at hname
    | k + 2, _ => omega

/-- Clearing the entry `dirlookup` found for a name other than `.` and `..` keeps every
directory as it was made. -/
theorem clear_kept {s : Fs} {dp : Fin NINODE} {off i : Nat} {name : List Char}
    (hl : dirlookup (s.ino dp) name = some (off, i)) (hname : ¬(name = ['.'] ∨ name = ['.', '.'])) :
    DirsKept s (s.modifyAt dp fun d => { d with ents := d.ents.set off Dirent.empty }) := by
  rw [Fs.ino_eq] at hl
  obtain ⟨hk, he, -⟩ := dirlookup_spec hl
  intro d
  by_cases hd : d = (s.itable dp).inum
  · subst hd
    intro hdir
    simp only [Fs.modifyAt_eq, Fs.modify_inode, Function.update_self] at hdir ⊢
    exact ⟨hdir, fun q hwf => hwf.clear (hwf.two_le hk (by rw [he]; exact hname))⟩
  · exact .of_eq (by simp [hd]) (by simp [hd])

/-- The body of `sys_unlink`, holding the reference to `dp`: every reference it takes goes back,
and every directory is kept. -/
theorem unlinkAt_spec {dp : Fin NINODE} {name : List Char} {s t : Fs} {r : Int}
    {h : List (Fin NINODE)} (hs : ITable s (dp :: h)) (hrun : unlinkAt dp name s = .ok (t, r)) :
    IStep s t h := by
  rcases unlinkAt_cases hrun with ⟨-, rfl, -⟩ | ⟨off, i, jp, s₁, s₂, hdot, hl, hg, hl₂, -, hrest⟩
  · exact hs.iput_head
  have hdppos : 0 < (s.itable dp).ref := hs.one_le_ref List.mem_cons_self
  obtain ⟨hstep₁, hinode₁, -, hkeep₁⟩ := hs.iget (hs.live dp hdppos).1 (dirlookup_spec hl).2.2 hg
  obtain ⟨hstep₂, -, -, hinode₂, hframe₂⟩ := hstep₁.itable.ilock hl₂
  have hlock := hstep₁.trans hstep₂
  -- `dp` holds the same directory after `iget` and `ilock`
  have hino : s₂.ino dp = s.ino dp := by
    rw [Fs.ino_eq, Fs.ino_eq, hinode₂, (hframe₂ dp).1, hkeep₁ dp hdppos, hinode₁]
  rcases hrest with ⟨-, -, rfl⟩ | ⟨-, -, rfl⟩
  · -- a directory that still has entries is refused
    have hput := hlock.itable.iput_head
    exact hlock.trans (hput.trans hput.itable.iput_head)
  · -- the entry cleared, `dp`'s link for a directory's `..` dropped, then both references
    have hclear : IStep s₂ (s₂.modifyAt dp fun d => { d with ents := d.ents.set off Dirent.empty })
        (jp :: dp :: h) :=
      ⟨hlock.itable.modify id, clear_kept (by rwa [hino]) hdot, ⟨rfl, rfl, rfl, rfl, rfl⟩⟩
    generalize (s₂.modifyAt dp fun d => { d with ents := d.ents.set off Dirent.empty }) = s₃ at hclear
    have hlink : IStep s₃ (if (s₃.ino jp).type = .dir then
        s₃.modifyAt dp fun d => { d with nlink := d.nlink - 1 } else s₃) (jp :: dp :: h) := by
      split
      · exact IStep.of_sameShape hclear.itable (.modify rfl rfl)
      · exact .refl hclear.itable
    generalize (if (s₃.ino jp).type = .dir then
        s₃.modifyAt dp fun d => { d with nlink := d.nlink - 1 } else s₃) = s₄ at hlink
    have hput := (hlink.itable.perm (List.Perm.swap dp jp h)).iput_head
    have hnl := IStep.of_sameShape hput.itable
      (.modify (i := ((iput dp s₄).itable jp).inum) (f := fun d => { d with nlink := d.nlink - 1 })
        rfl rfl)
    exact hlock.trans (hclear.trans (hlink.trans (hput.trans (hnl.trans hnl.itable.iput_head))))

end Xv6
