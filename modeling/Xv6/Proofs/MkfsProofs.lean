import Xv6.Mkfs
import Xv6.Proofs.TxnSize

/-!
# The root directory `mkfs` writes

`iappend` gives a file its direct blocks in order, so while the root's entries fit in the
direct blocks the blocks with an address are exactly those below its size (`Dense`). The
fix-up at the end of `main` rounds the size up to the next block boundary past it,
`((off/BSIZE) + 1) * BSIZE`: when the entries fill whole blocks (`files.length + 2` a multiple
of `BSIZE / direntSize = 64`) the size grows by a block that has no address. The kernel's
`dirlookup` then reads that block through `readi`, whose `bmap` allocates it.
-/

namespace Xv6

namespace Mkfs

/-! ## `blockFor` -/

section BlockFor

variable (fbn : Nat) (din : Dinode) (im : Image)

@[simp]
theorem blockFor_dinode : (blockFor fbn din im).2.2.dinode = im.dinode := by
  unfold blockFor
  dsimp only
  split_ifs <;> rfl

@[simp]
theorem blockFor_freeinode : (blockFor fbn din im).2.2.freeinode = im.freeinode := by
  unfold blockFor
  dsimp only
  split_ifs <;> rfl

theorem blockFor_freeblock_le : im.freeblock ≤ (blockFor fbn din im).2.2.freeblock := by
  unfold blockFor
  dsimp only
  split_ifs <;> dsimp only <;> omega

/-- Below `NDIRECT`, `blockFor` gives block `fbn` the address `freeblock` when it has none. -/
theorem blockFor_addrs (h : fbn < NDIRECT) (k : Nat) :
    (blockFor fbn din im).2.1.addrs k = if k = fbn ∧ din.addrs fbn = 0 then im.freeblock
      else din.addrs k := by
  unfold blockFor
  rw [if_pos h]
  by_cases h0 : din.addrs fbn = 0
  · by_cases hk : k = fbn
    · subst hk
      simp [h0]
    · simp [h0, hk]
  · simp [h0]

theorem blockFor_fst (h : fbn < NDIRECT) :
    (blockFor fbn din im).1 = (blockFor fbn din im).2.1.addrs fbn := by
  unfold blockFor
  rw [if_pos h]

end BlockFor

/-! ## `iappend` -/

/-- The direct blocks of `din` with an address are exactly those that start below `off`. -/
def Dense (din : Dinode) (off : Nat) : Prop :=
  ∀ k < NDIRECT, din.addrs k ≠ 0 ↔ k * BSIZE < off

@[simp]
theorem dense_with_size (din : Dinode) (n off : Nat) : Dense { din with size := n } off ↔ Dense din off :=
  Iff.rfl

/-- One round of the loop in the direct blocks keeps `Dense`: block `off / BSIZE` has an
address afterwards, and the new offset stays within it. -/
theorem Dense.blockFor {din : Dinode} {off n1 : Nat} (hD : Dense din off) (im : Image)
    (hfb : 0 < im.freeblock) (hfbn : off / BSIZE < NDIRECT) (hn1 : 0 < n1)
    (hn1' : off + n1 ≤ (off / BSIZE + 1) * BSIZE) :
    Dense (Mkfs.blockFor (off / BSIZE) din im).2.1 (off + n1) := by
  have hB : BSIZE = 1024 := rfl
  intro k hk
  rw [blockFor_addrs _ _ _ hfbn]
  by_cases hkf : k = off / BSIZE
  · -- the block written has an address afterwards, and it starts below the new offset
    subst hkf
    have hlt : off / BSIZE * BSIZE < off + n1 := by
      rw [hB]
      omega
    by_cases h0 : din.addrs (off / BSIZE) = 0
    · simp [h0, hlt, Nat.pos_iff_ne_zero.mp hfb]
    · simp [h0, hlt]
  · -- any other block starts below `off` exactly when it starts below `off + n1`
    rw [if_neg (fun h => hkf h.1), hD k hk, hB]
    rw [hB] at hn1' hkf
    omega

theorem iappendLoop_spec (fuel off : Nat) (p : List Nat) (din : Dinode) (im : Image)
    (hfit : off + p.length ≤ MAXFILE * BSIZE) (hfuel : p.length ≤ fuel) :
    ∃ din' im', iappendLoop fuel off p din im = some (off + p.length, din', im') ∧
      im'.dinode = im.dinode ∧ im'.freeinode = im.freeinode ∧ im.freeblock ≤ im'.freeblock ∧
      (0 < im.freeblock → Dense din off → off + p.length ≤ NDIRECT * BSIZE →
        Dense din' (off + p.length)) := by
  induction fuel generalizing off p din im with
  | zero =>
    obtain rfl : p = [] := List.eq_nil_of_length_eq_zero (by omega)
    exact ⟨din, im, by simp [iappendLoop], rfl, rfl, le_rfl, fun _ hD _ => by simpa using hD⟩
  | succ fuel ih =>
    cases p with
    | nil => exact ⟨din, im, by simp [iappendLoop], rfl, rfl, le_rfl, fun _ hD _ => by simpa using hD⟩
    | cons b bs =>
      have hB : BSIZE = 1024 := rfl
      have hM : MAXFILE * BSIZE = 268 * 1024 := rfl
      have hN : NDIRECT * BSIZE = 12 * 1024 := rfl
      have hlen : (b :: bs).length = bs.length + 1 := rfl
      -- `assert(fbn < MAXFILE)` holds: a byte is left to write below `MAXFILE * BSIZE`
      have hfbn : ¬MAXFILE ≤ off / BSIZE := by
        rw [hM] at hfit
        rw [hB]
        simp only [MAXFILE, NDIRECT, NINDIRECT, BSIZE]
        omega
      rcases hbf : blockFor (off / BSIZE) din im with ⟨x, din₁, im₁⟩
      have hd₁ : im₁.dinode = im.dinode := by simpa [hbf] using blockFor_dinode (off / BSIZE) din im
      have hi₁ : im₁.freeinode = im.freeinode := by
        simpa [hbf] using blockFor_freeinode (off / BSIZE) din im
      have hf₁ : im.freeblock ≤ im₁.freeblock := by
        simpa [hbf] using blockFor_freeblock_le (off / BSIZE) din im
      -- the round copies `n1 ≥ 1` bytes, as far as the end of block `fbn`
      set n1 := min (b :: bs).length ((off / BSIZE + 1) * BSIZE - off) with hn1
      have hn1pos : 0 < n1 := by
        rw [hn1, hB]
        omega
      have hn1le : n1 ≤ (b :: bs).length := min_le_left _ _
      set blk := copyInto (im₁.data x) (off - off / BSIZE * BSIZE) ((b :: bs).take n1) with hblk
      obtain ⟨din', im', hrun, hdin, hfi, hfb, hdense⟩ := ih (off + n1) ((b :: bs).drop n1) din₁
        { im₁ with data := Function.update im₁.data x blk }
        (by rw [List.length_drop]; omega) (by rw [List.length_drop]; omega)
      have hend : off + n1 + ((b :: bs).drop n1).length = off + (b :: bs).length := by
        rw [List.length_drop]
        omega
      refine ⟨din', im', ?_, hdin.trans hd₁, hfi.trans hi₁, hf₁.trans hfb, ?_⟩
      · rw [← hend, ← hrun]
        simp only [iappendLoop, if_neg hfbn, hbf]
        rfl
      · intro hpos hD hdir
        have hdir' : off / BSIZE < NDIRECT := by
          rw [hN] at hdir
          rw [hB]
          simp only [NDIRECT]
          omega
        have hD₁ : Dense din₁ (off + n1) := by
          have := hD.blockFor im hpos hdir' hn1pos (by rw [hn1, hB]; omega)
          rwa [hbf] at this
        rw [← hend]
        exact hdense (Nat.lt_of_lt_of_le hpos hf₁) hD₁ (by omega)

theorem iappend_spec (inum : Nat) (p : List Nat) (im : Image)
    (hfit : (im.dinode inum).size + p.length ≤ MAXFILE * BSIZE) :
    ∃ im', iappend inum p im = some im' ∧
      (im'.dinode inum).size = (im.dinode inum).size + p.length ∧
      (∀ j, j ≠ inum → im'.dinode j = im.dinode j) ∧
      im'.freeinode = im.freeinode ∧ im.freeblock ≤ im'.freeblock ∧
      (0 < im.freeblock → Dense (im.dinode inum) (im.dinode inum).size →
        (im.dinode inum).size + p.length ≤ NDIRECT * BSIZE →
        Dense (im'.dinode inum) (im'.dinode inum).size) := by
  obtain ⟨din', im₁, hrun, hd, hi, hf, hdense⟩ :=
    iappendLoop_spec p.length (im.dinode inum).size p (im.dinode inum) im hfit le_rfl
  refine ⟨{ im₁ with dinode := (Function.update im₁.dinode inum
      { din' with size := (im.dinode inum).size + p.length }) }, ?_, by simp, ?_, hi, hf, ?_⟩
  · simp [iappend, hrun]
  · intro j hj
    simp [hj, hd]
  · intro hpos hD hdir
    simpa using hdense hpos hD hdir

theorem copyFile_spec (inum fuel : Nat) (bs : List Nat) (im : Image) (hfuel : bs.length ≤ fuel)
    (hfit : (im.dinode inum).size + bs.length ≤ MAXFILE * BSIZE) :
    ∃ im', copyFile inum fuel bs im = some im' ∧ (∀ j, j ≠ inum → im'.dinode j = im.dinode j) ∧
      im'.freeinode = im.freeinode ∧ im.freeblock ≤ im'.freeblock := by
  induction fuel generalizing bs im with
  | zero =>
    obtain rfl : bs = [] := List.eq_nil_of_length_eq_zero (by omega)
    exact ⟨im, rfl, fun _ _ => rfl, rfl, le_rfl⟩
  | succ fuel ih =>
    cases bs with
    | nil => exact ⟨im, rfl, fun _ _ => rfl, rfl, le_rfl⟩
    | cons b rest =>
      -- one `read` returns the next `BSIZE` bytes at most, and `iappend` writes them
      have hsplit : ((b :: rest).take BSIZE).length + ((b :: rest).drop BSIZE).length =
          (b :: rest).length := by
        simp only [List.length_take, List.length_drop]
        omega
      obtain ⟨im₁, h₁, hsize, hother, hi₁, hf₁, -⟩ :=
        iappend_spec inum ((b :: rest).take BSIZE) im (by omega)
      obtain ⟨im₂, h₂, hother₂, hi₂, hf₂⟩ := ih ((b :: rest).drop BSIZE) im₁
        (by simp only [List.length_drop, List.length_cons, BSIZE] at hfuel ⊢; omega)
        (by rw [hsize]; omega)
      refine ⟨im₂, ?_, fun j hj => (hother₂ j hj).trans (hother j hj), hi₂.trans hi₁,
        hf₁.trans hf₂⟩
      simp [copyFile, h₁, h₂]

/-! ## `main` -/

@[simp]
theorem direntBytes_length (inum : Nat) (name : List Char) :
    (direntBytes inum name).length = direntSize := by
  simp only [direntBytes, List.length_append, List.length_cons, List.length_nil, List.length_take,
    List.length_map, List.length_replicate, direntSize]
  omega

theorem addFile_spec {rootino : Nat} {im : Image} {f : List Char × List Nat}
    (hname : (shortName f.1).isSome) (hlen : f.2.length ≤ MAXFILE * BSIZE)
    (hroot : rootino < im.freeinode)
    (hfit : (im.dinode rootino).size + direntSize ≤ MAXFILE * BSIZE) :
    ∃ im', addFile rootino im f = some im' ∧
      (im'.dinode rootino).size = (im.dinode rootino).size + direntSize ∧
      im'.freeinode = im.freeinode + 1 ∧ im.freeblock ≤ im'.freeblock ∧
      (0 < im.freeblock → Dense (im.dinode rootino) (im.dinode rootino).size →
        (im.dinode rootino).size + direntSize ≤ NDIRECT * BSIZE →
        Dense (im'.dinode rootino) (im'.dinode rootino).size) := by
  obtain ⟨name, hn⟩ := Option.isSome_iff_exists.mp hname
  -- `ialloc` takes the next inode number, which is not the root's
  have hne : rootino ≠ im.freeinode := by omega
  have hroot₀ : (ialloc T_FILE im).2.dinode rootino = im.dinode rootino := by
    simp [ialloc, hne]
  obtain ⟨im₁, h₁, hs₁, ho₁, hi₁, hf₁, hd₁⟩ :=
    iappend_spec rootino (direntBytes im.freeinode name) (ialloc T_FILE im).2
      (by rw [hroot₀, direntBytes_length]; exact hfit)
  -- the file's own inode starts empty, and its bytes go there
  have hfile : (im₁.dinode im.freeinode).size = 0 := by
    rw [ho₁ _ (Ne.symm hne)]
    simp [ialloc]
  obtain ⟨im₂, h₂, ho₂, hi₂, hf₂⟩ :=
    copyFile_spec im.freeinode f.2.length f.2 im₁ le_rfl (by rw [hfile]; omega)
  have hroot₂ : im₂.dinode rootino = im₁.dinode rootino := ho₂ rootino hne
  refine ⟨im₂, ?_, ?_, ?_, hf₁.trans hf₂, ?_⟩
  · simp only [addFile, hn, Option.bind_eq_bind, Option.bind_some]
    rw [show ialloc T_FILE im = (im.freeinode, (ialloc T_FILE im).2) from rfl]
    simp [h₁, h₂]
  · rw [hroot₂, hs₁, hroot₀, direntBytes_length]
  · rw [hi₂, hi₁]
    rfl
  · intro hpos hD hdir
    rw [hroot₂]
    exact hd₁ hpos (by rwa [hroot₀]) (by rw [hroot₀, direntBytes_length]; exact hdir)

theorem foldlM_addFile_spec {rootino : Nat} (files : List (List Char × List Nat)) {im : Image}
    (hvalid : ∀ f ∈ files, (shortName f.1).isSome ∧ f.2.length ≤ MAXFILE * BSIZE)
    (hroot : rootino < im.freeinode)
    (hfit : (im.dinode rootino).size + direntSize * files.length ≤ MAXFILE * BSIZE) :
    ∃ im', files.foldlM (addFile rootino) im = some im' ∧
      (im'.dinode rootino).size = (im.dinode rootino).size + direntSize * files.length ∧
      im.freeblock ≤ im'.freeblock ∧
      (0 < im.freeblock → Dense (im.dinode rootino) (im.dinode rootino).size →
        (im.dinode rootino).size + direntSize * files.length ≤ NDIRECT * BSIZE →
        Dense (im'.dinode rootino) (im'.dinode rootino).size) := by
  have hd : direntSize = 16 := rfl
  induction files generalizing im with
  | nil => exact ⟨im, rfl, by simp, le_rfl, fun _ hD _ => hD⟩
  | cons f rest ih =>
    simp only [List.length_cons, hd] at hfit
    obtain ⟨im₁, h₁, hs₁, hi₁, hf₁, hd₁⟩ := addFile_spec (hvalid f (by simp)).1
      (hvalid f (by simp)).2 hroot (by rw [hd]; omega)
    obtain ⟨im₂, h₂, hs₂, hf₂, hd₂⟩ := @ih im₁ (fun g hg => hvalid g (by simp [hg])) (by omega)
      (by rw [hs₁, hd]; omega)
    refine ⟨im₂, by simp [h₁, h₂], by rw [hs₂, hs₁, hd]; simp only [List.length_cons]; omega,
      hf₁.trans hf₂, ?_⟩
    intro hpos hD hdir
    simp only [List.length_cons, hd] at hdir
    exact hd₂ (lt_of_lt_of_le hpos hf₁) (hd₁ hpos hD (by rw [hd]; omega)) (by rw [hs₁, hd]; omega)

/-- The image before `balloc`: the root's direct blocks are dense up to its `files.length + 2`
entries, and its size is rounded up past them to the next block boundary. -/
theorem main_root (files : List (List Char × List Nat))
    (hvalid : ∀ f ∈ files, (shortName f.1).isSome ∧ f.2.length ≤ MAXFILE * BSIZE)
    (hlen : files.length + 2 ≤ 64 * NDIRECT) :
    ∃ im, main files = balloc im.freeblock im ∧
      (im.dinode ROOTINO).size = (direntSize * (files.length + 2) / BSIZE + 1) * BSIZE ∧
      Dense (im.dinode ROOTINO) (direntSize * (files.length + 2)) ∧ 0 < im.freeblock := by
  have hd : direntSize = 16 := rfl
  have hM : MAXFILE * BSIZE = 268 * 1024 := rfl
  have hN : NDIRECT * BSIZE = 12 * 1024 := rfl
  have hN' : NDIRECT = 12 := rfl
  have hstart : ialloc T_DIR Image.start = (ROOTINO, (ialloc T_DIR Image.start).2) := rfl
  set im₀ := (ialloc T_DIR Image.start).2 with him₀
  have hsize₀ : (im₀.dinode ROOTINO).size = 0 := rfl
  have hdense₀ : Dense (im₀.dinode ROOTINO) 0 := fun k _ => by
    simp [im₀, ialloc, Image.start, ROOTINO]
  have hpos₀ : 0 < im₀.freeblock := by decide
  -- `.` and `..`
  obtain ⟨im₁, h₁, hs₁, -, hi₁, hf₁, hd₁⟩ :=
    iappend_spec ROOTINO (direntBytes ROOTINO ['.']) im₀ (by rw [hsize₀, direntBytes_length, hd, hM]; omega)
  obtain ⟨im₂, h₂, hs₂, -, hi₂, hf₂, hd₂⟩ :=
    iappend_spec ROOTINO (direntBytes ROOTINO ['.', '.']) im₁
      (by rw [hs₁, hsize₀, direntBytes_length, direntBytes_length, hd, hM]; omega)
  have hD₂ : Dense (im₂.dinode ROOTINO) (im₂.dinode ROOTINO).size := by
    refine hd₂ (lt_of_lt_of_le hpos₀ hf₁) (hd₁ hpos₀ (by rwa [hsize₀]) ?_) ?_ <;>
      simp only [hs₁, hsize₀, direntBytes_length, hd, hN] <;> omega
  -- one entry per file
  obtain ⟨im₃, h₃, hs₃, hf₃, hd₃⟩ := @foldlM_addFile_spec ROOTINO files im₂ hvalid
    (by rw [hi₂, hi₁]; decide) (by rw [hs₂, hs₁, hsize₀]; simp only [direntBytes_length, hd, hM, hN'] at hlen ⊢; omega)
  have hsize₃ : (im₃.dinode ROOTINO).size = direntSize * (files.length + 2) := by
    rw [hs₃, hs₂, hs₁, hsize₀]
    simp only [direntBytes_length, hd]
    omega
  have hD₃ : Dense (im₃.dinode ROOTINO) (direntSize * (files.length + 2)) := by
    rw [← hsize₃]
    refine hd₃ (lt_of_lt_of_le (lt_of_lt_of_le hpos₀ hf₁) hf₂) hD₂ ?_
    rw [hs₂, hs₁, hsize₀]
    simp only [hN'] at hlen
    simp only [direntBytes_length, hd, hN]
    omega
  -- the fix-up of the root's size
  refine ⟨{ im₃ with dinode := (Function.update im₃.dinode ROOTINO
      { im₃.dinode ROOTINO with size := ((im₃.dinode ROOTINO).size / BSIZE + 1) * BSIZE }) },
    ?_, by simp [hsize₃], by simpa using hD₃,
    lt_of_lt_of_le hpos₀ (hf₁.trans (hf₂.trans hf₃))⟩
  simp only [main]
  rw [hstart]
  simp [h₁, h₂, h₃]

/-- `main` with 62 files `user/_p0`, …, `user/_p61`, each empty: with `.` and `..` the root
has 64 entries, one block's worth. -/
def files62 : List (List Char × List Nat) :=
  (List.range 62).map fun i => ("user/_p".toList ++ (Nat.repr i).toList, [])

/-- When `.`, `..` and the files' entries fill whole blocks, the fix-up makes the root's size
a block longer than its entries, and that last block has no address: a hole below the size. -/
theorem mkfs_root_dir_hole (files : List (List Char × List Nat))
    (hvalid : ∀ f ∈ files, (shortName f.1).isSome ∧ f.2.length ≤ MAXFILE * BSIZE)
    (hfull : (files.length + 2) % 64 = 0) (hlen : files.length + 2 < 64 * NDIRECT) :
    ∃ im, main files = balloc im.freeblock im ∧
      (files.length + 2) / 64 < NDIRECT ∧
      (files.length + 2) / 64 * BSIZE < (im.dinode ROOTINO).size ∧
      (im.dinode ROOTINO).addrs ((files.length + 2) / 64) = 0 := by
  obtain ⟨im, hmain, hsize, hD, -⟩ := main_root files hvalid hlen.le
  have hB : BSIZE = 1024 := rfl
  have hd : direntSize = 16 := rfl
  have hN : NDIRECT = 12 := rfl
  have hk : (files.length + 2) / 64 < NDIRECT := by
    rw [hN] at hlen ⊢
    omega
  refine ⟨im, hmain, hk, ?_, ?_⟩
  · rw [hsize, hd, hB]
    omega
  · -- the entries end exactly where block `(files.length + 2) / 64` starts
    by_contra h
    have hlt := (hD _ hk).mp h
    rw [hB, hd] at hlt
    omega

theorem mkfs_root_dir_hole_sixty_two :
    ∃ im, main files62 = balloc im.freeblock im ∧
      (files62.length + 2) / 64 < NDIRECT ∧
      (files62.length + 2) / 64 * BSIZE < (im.dinode ROOTINO).size ∧
      (im.dinode ROOTINO).addrs ((files62.length + 2) / 64) = 0 :=
  mkfs_root_dir_hole files62 (by decide) (by decide) (by decide)

end Mkfs

/-! ## The kernel reading the image -/

namespace Blocks

/-- With the first `m` blocks in use and the rest free, `balloc` hands out block `m`. -/
theorem balloc_of_prefix (sb : Superblock) {s : BState} {m : Nat}
    (hb : ∀ b, s.bitmap b = decide (b < m)) (hm : m < sb.size) :
    balloc sb s =
      (m, bzero m ({ s with bitmap := Function.update s.bitmap m true }.logWrite (BBLOCK sb m))) := by
  have hfind : (List.range sb.size).find? (fun b => !s.bitmap b) = some m :=
    List.find?_range_eq_some.mpr ⟨by simp [hb], List.mem_range.mpr hm, fun j hj => by simp [hb, hj]⟩
  simp only [balloc, hfind]

/-- `bmap` of a direct block with no address takes the block `balloc` hands out. -/
theorem bmap_of_hole {sb : Superblock} {s s' : BState} {ip bn a : Nat} (hbn : bn < NDIRECT)
    (h0 : s.addrs ip bn = 0) (hb : balloc sb s = (a, s')) (ha : a ≠ 0) :
    bmap sb ip bn s = (a, s'.setAddr ip bn a) := by
  simp only [bmap, if_pos hbn, if_pos h0, hb, if_neg ha]

/-- A `readi` into kernel memory of `n ≤ BSIZE` bytes from the start of block `bn`, inside the
file: one `bmap`, whose state it returns. -/
theorem readi_one_block {sb : Superblock} {s s' : BState} {ip bn n a : Nat} (hn : 0 < n)
    (hnB : n ≤ BSIZE) (hsize : bn * BSIZE + n ≤ s.size ip) (hbig : bn * BSIZE + n < 2 ^ 32)
    (hmap : bmap sb ip bn s = (a, s')) (ha : a ≠ 0) :
    readi sb ip (fun _ => true) (bn * BSIZE) n s = ((n : Int), s') := by
  have hB : BSIZE = 1024 := rfl
  have hoff : bn * BSIZE / BSIZE = bn := by rw [hB]; omega
  obtain ⟨k, rfl⟩ : ∃ k, n = k + 1 := ⟨n - 1, by omega⟩
  have hmin : min (k + 1) BSIZE = k + 1 := Nat.min_eq_left hnB
  simp only [readi, show ¬(s.size ip < bn * BSIZE ∨ 2 ^ 32 ≤ bn * BSIZE + (k + 1)) by omega,
    if_false, show ¬s.size ip < bn * BSIZE + (k + 1) by omega]
  -- one round reads the whole chunk; the next finds nothing left
  cases k with
  | zero => simp [readiLoop, hoff, hmap, ha, hmin]
  | succ k => simp [readiLoop, hoff, hmap, ha, hmin]

end Blocks

namespace Mkfs

/-- On the image with the hole, the kernel's first read of the root's last block, which
`dirlookup` makes for the slot at its start, allocates a block: `bmap` finds the address `0`,
`balloc` hands out the first free block, and both the bitmap block and the new block are
logged. `readi` does not write the inode back, so the address stays only in memory. -/
theorem readi_allocates_root_hole (files : List (List Char × List Nat))
    (hvalid : ∀ f ∈ files, (shortName f.1).isSome ∧ f.2.length ≤ MAXFILE * BSIZE)
    (hfull : (files.length + 2) % 64 = 0) (hlen : files.length + 2 < 64 * NDIRECT)
    {im : Image} (him : main files = some im) (hroom : im.freeblock < FSSIZE) :
    (kernelBlocks im).addrs ROOTINO ((files.length + 2) / 64) = 0 ∧
      (files.length + 2) / 64 * BSIZE + direntSize ≤ (kernelBlocks im).size ROOTINO ∧
      (kernelBlocks im).bitmap im.freeblock = false ∧
      ∃ s', Blocks.readi Blocks.sbMkfs ROOTINO (fun _ => true) ((files.length + 2) / 64 * BSIZE)
          direntSize (kernelBlocks im) = ((direntSize : Int), s') ∧
        s'.bitmap im.freeblock = true ∧ s'.addrs ROOTINO ((files.length + 2) / 64) = im.freeblock ∧
        s'.logged = [Blocks.BBLOCK Blocks.sbMkfs im.freeblock, im.freeblock] := by
  obtain ⟨im₀, hmain, hsize, hD, hpos⟩ := main_root files hvalid hlen.le
  have hB : BSIZE = 1024 := rfl
  have hd : direntSize = 16 := rfl
  have hN : NDIRECT = 12 := rfl
  have hk : (files.length + 2) / 64 < NDIRECT := by
    rw [hN] at hlen ⊢
    omega
  -- `main` returned `im₀` with the bitmap `balloc(freeblock)` writes
  rw [hmain, balloc] at him
  split_ifs at him
  cases him
  have hhole : (im₀.dinode ROOTINO).addrs ((files.length + 2) / 64) = 0 := by
    by_contra h
    have hlt := (hD _ hk).mp h
    rw [hB, hd] at hlt
    omega
  refine ⟨hhole, by simp only [kernelBlocks, hsize, hd, hB]; omega, by simp [kernelBlocks], ?_⟩
  -- `bmap` finds the hole and `balloc` the first free block
  have hballoc := Blocks.balloc_of_prefix Blocks.sbMkfs
    (s := kernelBlocks { im₀ with bitmap := fun b => decide (b < im₀.freeblock) }) (fun _ => rfl)
    hroom
  have hmap := Blocks.bmap_of_hole hk hhole hballoc (Nat.pos_iff_ne_zero.mp hpos)
  refine ⟨_, Blocks.readi_one_block (by decide) (by decide)
    (by simp only [kernelBlocks, hsize, hd, hB]; omega) (by rw [hB, hd]; omega) hmap
    (Nat.pos_iff_ne_zero.mp hpos), ?_, ?_, ?_⟩ <;>
    simp [Blocks.bzero, Blocks.BState.setAddr, Blocks.BState.logWrite, kernelBlocks]

theorem readi_allocates_root_hole_sixty_two :
    ∃ im, main files62 = some im ∧ im.freeblock < FSSIZE ∧
      (kernelBlocks im).addrs ROOTINO ((files62.length + 2) / 64) = 0 ∧
      (files62.length + 2) / 64 * BSIZE + direntSize ≤ (kernelBlocks im).size ROOTINO ∧
      (kernelBlocks im).bitmap im.freeblock = false ∧
      ∃ s', Blocks.readi Blocks.sbMkfs ROOTINO (fun _ => true) ((files62.length + 2) / 64 * BSIZE)
          direntSize (kernelBlocks im) = ((direntSize : Int), s') ∧
        s'.bitmap im.freeblock = true ∧ s'.addrs ROOTINO ((files62.length + 2) / 64) = im.freeblock ∧
        s'.logged = [Blocks.BBLOCK Blocks.sbMkfs im.freeblock, im.freeblock] := by
  obtain ⟨im, him⟩ : ∃ im, main files62 = some im := Option.isSome_iff_exists.mp (by decide)
  have hroom : im.freeblock < FSSIZE := by
    have h : (main files62).map (fun im => decide (im.freeblock < FSSIZE)) = some true := by decide
    rw [him] at h
    simpa using h
  exact ⟨im, him, hroom,
    readi_allocates_root_hole files62 (by decide) (by decide) (by decide) him hroom⟩

end Mkfs

end Xv6
