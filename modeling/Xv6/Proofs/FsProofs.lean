import Mathlib
import Xv6.Fs
import Xv6.Lib.Run
import Xv6.Lib.Loop

/-!
# Link counts of the file system

What the link count of an inode should be: the entries that name it in allocated
directories, `.` entries left out (`linkCount`), so that a directory counts its entry in its
parent and the `..` of each subdirectory, and the root its own `..`. `LinkInv` says every
allocated inode's `nlink` is that count; `Reachable` is what the root reaches through
directory entries.

`sys_unlink` removes a directory once it is empty, and lowers its parent's `nlink` for the
child's `..`. But the directory stays allocated while some process holds it (as its current
directory), and its `..` entry stays with it: the parent then has one link fewer than
entries naming it (`unlinkAt_held_dir_breaks_linkInv`). The held directory can still receive
entries, so a directory made in it has `nlink` 1 and nothing reaches it from the root
(`unlink_cwd_dir_leaks`).
-/

namespace Xv6

/-! ## Field lemmas -/

section Fields

variable (s : Fs) (i : Nat) (f : Inode → Inode) (ip : Fin NINODE) (e : IEntry)

@[simp]
theorem Fs.modify_inode : (s.modify i f).inode = Function.update s.inode i (f (s.inode i)) := rfl

@[simp]
theorem Fs.modify_itable : (s.modify i f).itable = s.itable := rfl

@[simp]
theorem Fs.setEntry_inode : (s.setEntry ip e).inode = s.inode := rfl

@[simp]
theorem Fs.setEntry_itable : (s.setEntry ip e).itable = Function.update s.itable ip e := rfl

@[simp]
theorem Fs.setEntry_cwd : (s.setEntry ip e).cwd = s.cwd := rfl

@[simp]
theorem Fs.setEntry_file : (s.setEntry ip e).file = s.file := rfl

/-- `ip->type` and the other inode fields are those of the inode the entry holds. -/
@[simp]
theorem Fs.ino_eq : s.ino ip = s.inode (s.itable ip).inum := rfl

@[simp]
theorem Fs.modifyAt_eq : s.modifyAt ip f = s.modify (s.itable ip).inum f := rfl

/-- Writing an entry back as it is changes nothing. -/
theorem Fs.setEntry_self : s.setEntry ip (s.itable ip) = s := by
  unfold Fs.setEntry
  rw [Function.update_eq_self]

theorem Fs.setEntry_setEntry (e' : IEntry) : (s.setEntry ip e).setEntry ip e' = s.setEntry ip e' := by
  simp [Fs.setEntry]

end Fields

/-- `p->cwd` is there exactly when the process has a current directory. -/
theorem Fs.curdir_eq_ok {s : Fs} {p : Fin NPROC} {c : Fin NINODE} :
    s.curdir p = .ok c ↔ s.cwd p = some c := by
  unfold Fs.curdir
  cases h : s.cwd p <;> simp

/-! ## The scan of `iget` -/

section Iget

variable {dev inum : Nat} {s t : Fs} {ip : Fin NINODE}

/-- The scan of `iget` is a search for an entry with a reference that holds the inode, and
failing that, for the first entry without references. -/
theorem igetLoop_eq (dev inum : Nat) (s : Fs) (l : List (Fin NINODE)) (empty : Option (Fin NINODE)) :
    igetLoop dev inum s l empty =
      match l.find? (fun ip => decide (0 < (s.itable ip).ref ∧ (s.itable ip).dev = dev ∧
          (s.itable ip).inum = inum)) with
      | some ip => .ok (ip, idup ip s)
      | none =>
        match empty.or (l.find? fun ip => decide ((s.itable ip).ref = 0)) with
        | some ip => .ok (ip, s.setEntry ip ⟨dev, inum, 1, false⟩)
        | none => .error "iget: no inodes" := by
  induction l generalizing empty with
  | nil => cases empty <;> rfl
  | cons jp rest ih =>
    unfold igetLoop
    by_cases hhit : 0 < (s.itable jp).ref ∧ (s.itable jp).dev = dev ∧ (s.itable jp).inum = inum
    · rw [if_pos hhit, List.find?_cons_of_pos (by simpa using hhit)]
      rfl
    · rw [if_neg hhit, List.find?_cons_of_neg (by simpa using hhit), ih]
      -- the first entry without references is remembered, or found later
      have hempty : (if empty = none ∧ (s.itable jp).ref = 0 then some jp else empty).or
          (rest.find? fun ip => decide ((s.itable ip).ref = 0)) =
          empty.or ((jp :: rest).find? fun ip => decide ((s.itable ip).ref = 0)) := by
        cases empty <;> by_cases h0 : (s.itable jp).ref = 0 <;> simp [h0]
      rw [hempty]

theorem iget_eq (dev inum : Nat) (s : Fs) :
    iget dev inum s =
      match islots.find? (fun ip => decide (0 < (s.itable ip).ref ∧ (s.itable ip).dev = dev ∧
          (s.itable ip).inum = inum)) with
      | some ip => .ok (ip, idup ip s)
      | none =>
        match islots.find? fun ip => decide ((s.itable ip).ref = 0) with
        | some ip => .ok (ip, s.setEntry ip ⟨dev, inum, 1, false⟩)
        | none => .error "iget: no inodes" := by
  rw [iget, igetLoop_eq]
  rfl

/-- What `iget` can do: take one more reference to the entry that holds the inode, or, when no
entry with a reference holds it, recycle an entry without references for it. -/
theorem iget_ok (h : iget dev inum s = .ok (ip, t)) :
    (0 < (s.itable ip).ref ∧ (s.itable ip).dev = dev ∧ (s.itable ip).inum = inum ∧
        t = idup ip s) ∨
      ((s.itable ip).ref = 0 ∧
        (∀ jp, 0 < (s.itable jp).ref → ¬((s.itable jp).dev = dev ∧ (s.itable jp).inum = inum)) ∧
        t = s.setEntry ip ⟨dev, inum, 1, false⟩) := by
  rw [iget_eq] at h
  cases hf : islots.find? (fun ip => decide (0 < (s.itable ip).ref ∧ (s.itable ip).dev = dev ∧
      (s.itable ip).inum = inum)) with
  | some jp =>
    rw [hf] at h
    obtain ⟨rfl, rfl⟩ := Prod.mk.inj (Except.ok.inj h)
    have hhit := List.find?_some hf
    simp only [decide_eq_true_eq] at hhit
    exact .inl ⟨hhit.1, hhit.2.1, hhit.2.2, rfl⟩
  | none =>
    rw [hf] at h
    have hnone := List.find?_eq_none.mp hf
    cases he : islots.find? fun ip => decide ((s.itable ip).ref = 0) with
    | none =>
      rw [he] at h
      cases h
    | some jp =>
      rw [he] at h
      obtain ⟨rfl, rfl⟩ := Prod.mk.inj (Except.ok.inj h)
      refine .inr ⟨by simpa using List.find?_some he, fun kp hk hm => ?_, rfl⟩
      have := hnone kp (List.mem_finRange kp)
      simp only [decide_eq_true_eq] at this
      exact this ⟨hk, hm⟩

end Iget

/-! ## `ilock` and `iput` -/

section Lock

variable {s t : Fs} {ip : Fin NINODE}

/-- `ilock` succeeds exactly on an entry with a reference whose inode is valid or allocated,
and only marks it valid. -/
theorem ilock_eq_ok : ilock ip s = .ok t ↔
    1 ≤ (s.itable ip).ref ∧ ((s.itable ip).valid = true ∨ (s.ino ip).type ≠ .free) ∧
      t = s.setEntry ip { s.itable ip with valid := true } := by
  unfold ilock
  by_cases href : (s.itable ip).ref < 1
  · rw [if_pos href]
    simp only [reduceCtorEq, false_iff, not_and]
    omega
  rw [if_neg href]
  by_cases hv : (s.itable ip).valid = true
  · have hself : s.setEntry ip { s.itable ip with valid := true } = s := by
      rw [← hv]
      exact Fs.setEntry_self s ip
    rw [if_pos hv, hself]
    constructor
    · exact fun h => ⟨by omega, .inl hv, (Except.ok.inj h).symm⟩
    · rintro ⟨-, -, rfl⟩
      rfl
  · rw [if_neg hv]
    by_cases hf : (s.ino ip).type = .free
    · rw [if_pos hf]
      simp only [reduceCtorEq, false_iff, not_and]
      exact fun _ hok => absurd hf (hok.resolve_left hv)
    · rw [if_neg hf]
      constructor
      · exact fun h => ⟨by omega, .inr hf, (Except.ok.inj h).symm⟩
      · rintro ⟨-, -, rfl⟩
        rfl

/-- `iput` that does not free only drops the reference. -/
theorem iput_of_keep
    (h : ¬((s.itable ip).ref = 1 ∧ (s.itable ip).valid = true ∧ (s.ino ip).nlink = 0)) :
    iput ip s = s.setEntry ip { s.itable ip with ref := (s.itable ip).ref - 1 } := by
  unfold iput
  rw [if_neg h]

/-- `iput` of the last reference to an inode with no links: truncated and freed, and the
entry no longer valid. -/
theorem iput_of_free
    (h : (s.itable ip).ref = 1 ∧ (s.itable ip).valid = true ∧ (s.ino ip).nlink = 0) :
    iput ip s = ((itrunc ip s).modifyAt ip fun d => { d with type := .free }).setEntry ip
      { s.itable ip with ref := 0, valid := false } := by
  unfold iput
  rw [if_pos h]
  simp [Fs.setEntry_setEntry, h.1, itrunc]

@[simp]
theorem iput_itable_inum (jp : Fin NINODE) : ((iput ip s).itable jp).inum = (s.itable jp).inum := by
  unfold iput
  by_cases hj : jp = ip
  · subst hj
    split <;> simp [itrunc]
  · split <;> simp [itrunc, hj]

@[simp]
theorem iput_itable_dev (jp : Fin NINODE) : ((iput ip s).itable jp).dev = (s.itable jp).dev := by
  unfold iput
  by_cases hj : jp = ip
  · subst hj
    split <;> simp [itrunc]
  · split <;> simp [itrunc, hj]

end Lock

/-- The slot `dirlookup` finds holds the name and a used inode number. -/
theorem dirlookupLoop_spec {name : List Char} {ents : List Dirent} {k off i : Nat}
    (h : dirlookupLoop name k ents = some (off, i)) :
    ∃ hk : off - k < ents.length, k ≤ off ∧ ents[off - k] = ⟨i, name⟩ ∧ i ≠ 0 := by
  induction ents generalizing k with
  | nil => simp [dirlookupLoop] at h
  | cons de ents ih =>
    unfold dirlookupLoop at h
    split at h
    · next hde =>
      obtain ⟨rfl, rfl⟩ := Prod.mk.inj (Option.some.inj h)
      refine ⟨by simp, le_refl _, ?_, hde.1⟩
      simp only [Nat.sub_self, List.getElem_cons_zero]
      rw [← hde.2]
    · obtain ⟨hk, hle, heq, hi⟩ := ih h
      have hlt : off - k = off - (k + 1) + 1 := by omega
      refine ⟨by simp; omega, by omega, ?_, hi⟩
      simp only [hlt, List.getElem_cons_succ, heq]

theorem dirlookup_spec {dp : Inode} {name : List Char} {off i : Nat}
    (h : dirlookup dp name = some (off, i)) :
    ∃ hk : off < dp.ents.length, dp.ents[off] = ⟨i, name⟩ ∧ i ≠ 0 := by
  obtain ⟨hk, -, heq, hi⟩ := dirlookupLoop_spec h
  exact ⟨by simpa using hk, by simpa using heq, hi⟩

/-! ## Link counts and reachability -/

/-- Entries of `d` naming `i`, when `d` is an allocated directory; its `.` is left out. -/
def dirLinks (s : Fs) (i d : Nat) : Nat :=
  if (s.inode d).type = .dir then
    (s.inode d).ents.countP fun de => de.inum == i && de.name != ['.']
  else 0

/-- Entries naming `i` in all allocated directories, `.` entries left out. -/
def linkCount (s : Fs) (i : Nat) : Nat :=
  ((List.range NINODES).map (dirLinks s i)).sum

/-- Every allocated inode's `nlink` is its link count. -/
def LinkInv (s : Fs) : Prop :=
  ∀ i < NINODES, 0 < i → (s.inode i).type ≠ .free → (s.inode i).nlink = linkCount s i

instance (s : Fs) : Decidable (LinkInv s) :=
  inferInstanceAs (Decidable (∀ i < NINODES, 0 < i → (s.inode i).type ≠ .free →
    (s.inode i).nlink = linkCount s i))

/-- A used entry of the allocated directory `d` names `j`. -/
def DirEdge (s : Fs) (d j : Nat) : Prop :=
  (s.inode d).type = .dir ∧ ∃ de ∈ (s.inode d).ents, de.inum = j ∧ j ≠ 0

/-- What the root reaches through directory entries. -/
def Reachable (s : Fs) (i : Nat) : Prop := Relation.ReflTransGen (DirEdge s) ROOTINO i

/-- A set that holds the root and is closed under directory entries holds every reachable
inode. -/
theorem Reachable.mem_of_closed {s : Fs} {S : Nat → Prop} (hroot : S ROOTINO)
    (hclosed : ∀ d j, S d → DirEdge s d j → S j) {i : Nat} (h : Reachable s i) : S i := by
  induction h with
  | refl => exact hroot
  | tail _ hedge ih => exact hclosed _ _ ih hedge

/-- The link count only looks at the allocated directories' types and entries. -/
theorem linkCount_congr {s t : Fs} {i : Nat}
    (h : ∀ d < NINODES, dirLinks t i d = dirLinks s i d) : linkCount t i = linkCount s i := by
  unfold linkCount
  congr 1
  exact List.map_congr_left fun d hd => h d (List.mem_range.mp hd)

/-- Overwriting an entry that does not name `i` with one that does not either keeps the
count. -/
theorem countP_set_of_not {ents : List Dirent} {off : Nat} {a : Dirent}
    {p : Dirent → Bool} (hk : off < ents.length) (hold : p ents[off] = false)
    (hnew : p a = false) : (ents.set off a).countP p = ents.countP p := by
  rw [List.countP_set hk, hold, hnew]
  simp

/-! ## What `sys_unlink` does once it has the parent -/

section UnlinkAt

variable {s t : Fs} {dp : Fin NINODE} {name : List Char}

/-- What `unlinkAt` can do: refuse `.` and `..` or a name that is not there, giving `dp` back;
refuse a directory that still has entries, giving both back; or clear the entry, drop the
parent's link for a directory's `..`, drop the child's link, and give both back. -/
theorem unlinkAt_cases {r : Int} (h : unlinkAt dp name s = .ok (t, r)) :
    (r = -1 ∧ t = iput dp s ∧
      ((name = ['.'] ∨ name = ['.', '.']) ∨ dirlookup (s.ino dp) name = none)) ∨
    ∃ off i jp s₁ s₂, ¬(name = ['.'] ∨ name = ['.', '.']) ∧
      dirlookup (s.ino dp) name = some (off, i) ∧ iget (s.itable dp).dev i s = .ok (jp, s₁) ∧
      ilock jp s₁ = .ok s₂ ∧ ¬(s₂.ino jp).nlink < 1 ∧
      ((((s₂.ino jp).type = .dir ∧ isdirempty (s₂.ino jp) = false) ∧ r = -1 ∧
          t = iput dp (iput jp s₂)) ∨
        (¬((s₂.ino jp).type = .dir ∧ isdirempty (s₂.ino jp) = false) ∧ r = 0 ∧
          t = iput jp ((iput dp
            (if ((s₂.modifyAt dp fun d => { d with ents := d.ents.set off Dirent.empty }).ino
                jp).type = .dir then
              (s₂.modifyAt dp fun d => { d with ents := d.ents.set off Dirent.empty }).modifyAt dp
                fun d => { d with nlink := d.nlink - 1 }
            else s₂.modifyAt dp fun d => { d with ents := d.ents.set off Dirent.empty })).modifyAt
              jp fun d => { d with nlink := d.nlink - 1 }))) := by
  unfold unlinkAt at h
  by_cases hname : name = ['.'] ∨ name = ['.', '.']
  · rw [if_pos hname] at h
    obtain ⟨rfl, rfl⟩ := Prod.mk.inj (Except.ok.inj h)
    exact .inl ⟨rfl, rfl, .inl hname⟩
  rw [if_neg hname] at h
  cases hl : dirlookup (s.ino dp) name with
  | none =>
    rw [hl] at h
    obtain ⟨rfl, rfl⟩ := Prod.mk.inj (Except.ok.inj h)
    exact .inl ⟨rfl, rfl, .inr rfl⟩
  | some e =>
    obtain ⟨off, i⟩ := e
    rw [hl] at h
    obtain ⟨⟨jp, s₁⟩, hg, h⟩ := Loop.bind_eq_ok.mp h
    obtain ⟨s₂, hl₂, h⟩ := Loop.bind_eq_ok.mp h
    refine .inr ⟨off, i, jp, s₁, s₂, hname, rfl, hg, hl₂, ?_⟩
    dsimp only at h
    by_cases hn : (s₂.ino jp).nlink < 1
    · rw [if_pos hn] at h
      simp [throw, throwThe, MonadExceptOf.throw, bind, Except.bind] at h
    rw [if_neg hn] at h
    refine ⟨hn, ?_⟩
    by_cases hfull : (s₂.ino jp).type = .dir ∧ isdirempty (s₂.ino jp) = false
    · rw [if_pos hfull] at h
      obtain ⟨rfl, rfl⟩ := Prod.mk.inj (Except.ok.inj h)
      exact .inl ⟨hfull, rfl, rfl⟩
    · rw [if_neg hfull] at h
      obtain ⟨rfl, rfl⟩ := Prod.mk.inj (Except.ok.inj h)
      exact .inr ⟨hfull, rfl, rfl⟩

end UnlinkAt

/-! ## Unlinking a directory that a process still holds -/

section Unlink

variable {s s' : Fs} {dp : Fin NINODE} {off i : Nat} {name : List Char}

/-- What `unlinkAt` leaves of the inodes when it removes an empty directory `i` from `dp` while
an entry with a reference still holds `i` and `dp` keeps a link: `dp`'s slot cleared and one
link fewer, `i` one link fewer, and nothing freed. -/
theorem unlinkAt_held_dir_inode (hl : dirlookup (s.ino dp) name = some (off, i))
    (hdir : (s.inode i).type = .dir) (hne : i ≠ (s.itable dp).inum)
    (hheld : ∃ ip, 0 < (s.itable ip).ref ∧ (s.itable ip).dev = (s.itable dp).dev ∧
      (s.itable ip).inum = i)
    (hlinks : 1 < (s.ino dp).nlink) (h : unlinkAt dp name s = .ok (s', 0)) :
    s'.inode = Function.update (Function.update s.inode (s.itable dp).inum
      { s.ino dp with ents := (s.ino dp).ents.set off Dirent.empty,
                      nlink := (s.ino dp).nlink - 1 })
      i { s.inode i with nlink := (s.inode i).nlink - 1 } := by
  rcases unlinkAt_cases h with ⟨h0, -⟩ | ⟨off', i', jp, s₁, s₂, -, hl', hg, hl₂, -, hcase⟩
  · cases h0
  rw [hl] at hl'
  obtain ⟨rfl, rfl⟩ := Prod.mk.inj (Option.some.inj hl')
  -- `dirlookup`'s `iget` takes one more reference to the entry that holds `i`
  obtain ⟨hpos, -, hinum, rfl⟩ : 0 < (s.itable jp).ref ∧
      (s.itable jp).dev = (s.itable dp).dev ∧ (s.itable jp).inum = i ∧ s₁ = idup jp s := by
    rcases iget_ok hg with hhit | ⟨-, hnone, -⟩
    · exact hhit
    · obtain ⟨ip, hip, hdev, hinum⟩ := hheld
      exact absurd ⟨hdev, hinum⟩ (hnone ip hip)
  have hjd : jp ≠ dp := fun hj => hne (by rw [← hinum, hj])
  obtain ⟨-, -, rfl⟩ := ilock_eq_ok.mp hl₂
  rcases hcase with ⟨-, h0, -⟩ | ⟨-, -, rfl⟩
  · cases h0
  have hjd' : dp ≠ jp := Ne.symm hjd
  have hne' : (s.itable dp).inum ≠ i := Ne.symm hne
  rw [Fs.ino_eq] at hlinks
  rw [iput_of_keep, iput_of_keep]
  · funext d
    by_cases hdi : d = i
    · subst hdi
      simp [idup, Function.update_of_ne hjd, Function.update_of_ne hjd', Function.update_of_ne hne,
        hinum, hdir]
    · by_cases hdd : d = (s.itable dp).inum
      · subst hdd
        simp [idup, Function.update_of_ne hjd, Function.update_of_ne hjd', Function.update_of_ne hne,
          Function.update_of_ne hdi, hinum, hdir]
      · simp [idup, Function.update_of_ne hjd, Function.update_of_ne hjd', Function.update_of_ne hne,
          Function.update_of_ne hdi, Function.update_of_ne hdd, hinum, hdir]
  -- `dp` keeps a link, so the first `iput` does not free it
  · rintro ⟨-, -, h0⟩
    simp [idup, Function.update_of_ne hjd', Function.update_of_ne hne, hinum, hdir] at h0
    omega
  -- the entry of `i` has the reference `dirlookup` took besides the one it had
  · rintro ⟨h0, -, -⟩
    rw [iput_of_keep] at h0
    · simp [idup, Function.update_of_ne hjd, Function.update_of_ne hjd', Function.update_of_ne hne,
        hinum, hdir] at h0
      omega
    · rintro ⟨-, -, h0⟩
      simp [idup, Function.update_of_ne hjd', Function.update_of_ne hne, hinum, hdir] at h0
      omega

/-- When `unlinkAt` removes an empty directory `i` from `dp` while an entry with a reference
(as for a current directory) still holds `i`, `dp` loses the link of `i`'s `..`, but `i` stays
allocated with its `..` entry: a state with consistent link counts is left inconsistent at
`dp`. -/
theorem unlinkAt_held_dir_breaks_linkInv (hinv : LinkInv s)
    (hdp : 0 < (s.itable dp).inum ∧ (s.itable dp).inum < NINODES)
    (hdpdir : (s.ino dp).type = .dir) (hl : dirlookup (s.ino dp) name = some (off, i))
    (hdir : (s.inode i).type = .dir) (hne : i ≠ (s.itable dp).inum)
    (hheld : ∃ ip, 0 < (s.itable ip).ref ∧ (s.itable ip).dev = (s.itable dp).dev ∧
      (s.itable ip).inum = i)
    (hlinks : 1 < (s.ino dp).nlink) (h : unlinkAt dp name s = .ok (s', 0)) :
    ¬ LinkInv s' := by
  have hinode := unlinkAt_held_dir_inode hl hdir hne hheld hlinks h
  obtain ⟨hk, hent, -⟩ := dirlookup_spec hl
  generalize hq : (s.itable dp).inum = q at hinode hne hdp hdpdir hk hent hlinks
  simp only [Fs.ino_eq, hq] at hinode hdpdir hk hent hlinks
  intro hinv'
  -- the entries naming `q` are the same: the cleared slot named `i`, and `i` keeps its `..`
  have hcount : linkCount s' q = linkCount s q := by
    apply linkCount_congr
    intro d _
    by_cases hdi : d = i
    · subst hdi
      simp [dirLinks, hinode]
    by_cases hdd : d = q
    · subst hdd
      simp only [dirLinks, hinode, Function.update_of_ne (Ne.symm hne), Function.update_self,
        hdpdir, if_true]
      apply countP_set_of_not hk
      · simp [hent, hne]
      · simp [Dirent.empty, Nat.ne_of_lt hdp.1]
    · simp [dirLinks, hinode, Function.update_of_ne hdi, Function.update_of_ne hdd]
  have hnew := hinv' q hdp.2 hdp.1 (by simp [hinode, Function.update_of_ne (Ne.symm hne), hdpdir])
  have hold := hinv q hdp.2 hdp.1 (by simp [hdpdir])
  rw [hcount, ← hold] at hnew
  simp only [hinode, Function.update_of_ne (Ne.symm hne), Function.update_self] at hnew
  omega

end Unlink

/-! ## A run from the image `mkfs` builds -/

/-- A call that goes through: made by a process with a current directory, a `fork` into a free
slot, and the system call returns. -/
theorem Fs.next_eq_some {s t : Fs} {e : Fin NPROC × FsCall} : s.next e = some t ↔
    s.cwd e.1 ≠ none ∧ e.2.slotFree s = true ∧ ∃ r, sysCall e.1 e.2 s = .ok (t, r) := by
  obtain ⟨p, c⟩ := e
  unfold Fs.next
  by_cases hg : s.cwd p = none ∨ c.slotFree s = false
  · rw [if_pos hg]
    simp only [reduceCtorEq, false_iff, not_and]
    rintro hc hf -
    rcases hg with h | h
    · exact hc h
    · rw [h] at hf
      cases hf
  · rw [if_neg hg]
    obtain ⟨hc, hf⟩ := not_or.mp hg
    cases hrun : sysCall p c s with
    | error msg => simp
    | ok a =>
      obtain ⟨t', r⟩ := a
      show some t' = some t ↔ _
      constructor
      · rintro ⟨⟩
        exact ⟨hc, by simpa using hf, r, rfl⟩
      · rintro ⟨-, -, r', ⟨⟩⟩
        rfl

/-- On the image with only the root, consistent at boot, `initproc` makes `/a` and `/a/b`,
moves into `/a/b`, unlinks it, makes `c` there and moves back to `/`; every call succeeds.
The unlink is the call that breaks the link counts (`unlinkAt_held_dir_breaks_linkInv`): after
it `/a` (inode 2) has one link but two entries name it (`a` in `/`, and the `..` of the
unlinked `b`). At the end `b` (inode 3) is still a directory, with the link of `c`'s `..`, no
entry of the inode table holds a reference to it, and nothing reaches it from the root, so no
later `iput` frees it. -/
theorem unlink_cwd_dir_leaks :
    let evs : List (Fin NPROC × FsCall) :=
      [(initproc, .mkdir ['/', 'a']), (initproc, .mkdir ['/', 'a', '/', 'b']),
       (initproc, .chdir ['/', 'a', '/', 'b']), (initproc, .unlink ['/', 'a', '/', 'b']),
       (initproc, .mkdir ['c']), (initproc, .chdir ['/'])]
    let s₃ := (Trace.replay Fs.next (Fs.boot []) (evs.take 3)).getD (Fs.boot [])
    let s₄ := (Trace.replay Fs.next (Fs.boot []) (evs.take 4)).getD (Fs.boot [])
    let s := (Trace.replay Fs.next (Fs.boot []) evs).getD (Fs.boot [])
    LinkInv (Fs.boot []) ∧ Trace.Run FsStep (Fs.boot []) evs s ∧ LinkInv s₃ ∧ ¬ LinkInv s₄ ∧
      (s.inode 2).type = .dir ∧ (s.inode 2).nlink = 1 ∧ linkCount s 2 = 2 ∧
      (s.inode 3).type = .dir ∧ (s.inode 3).nlink = 1 ∧
      (∀ ip, (s.itable ip).inum = 3 → (s.itable ip).ref = 0) ∧ ¬ Reachable s 3 := by
  intro evs s₃ s₄ s
  have hrun₃ : Trace.Run FsStep (Fs.boot []) (evs.take 3) s₃ :=
    Trace.Run.of_replay_isSome _ (by decide +kernel)
  have hrun₄ : Trace.Run FsStep (Fs.boot [])
      (evs.take 3 ++ [(initproc, .unlink ['/', 'a', '/', 'b'])]) s₄ :=
    Trace.Run.of_replay_isSome _ (by decide +kernel)
  -- the unlink is a call from `s₃`, since the runs are those of a function
  have hbreak : ¬ LinkInv s₄ := by
    obtain ⟨t, ht, hstep⟩ := hrun₄.snoc_inv
    have hdet : ∀ (a : Fs) e (b b' : Fs), FsStep a e b → FsStep a e b' → b = b' :=
      fun _ _ _ _ h h' => Option.some.inj (h.symm.trans h')
    have hts : t = s₃ := Trace.Run.det hdet ht hrun₃
    rw [hts] at hstep
    clear ht hts
    obtain ⟨-, -, r, hcall⟩ := Fs.next_eq_some.mp hstep
    -- `sys_unlink` gets `a` (entry 1) and `b` from `nameiparent`, locks `a` and runs `unlinkAt`
    change sysUnlink initproc ['/', 'a', '/', 'b'] s₃ = .ok (s₄, r) at hcall
    unfold sysUnlink at hcall
    rw [if_neg (by decide)] at hcall
    obtain ⟨⟨r₀, u⟩, hn, hcall⟩ := Loop.bind_eq_ok.mp hcall
    have hfacts : (match nameiparent initproc ['/', 'a', '/', 'b'] s₃ with
        | .ok (r₀, u) => decide (r₀ = some (⟨1, by decide⟩, ['b'])) &&
          match ilock ⟨1, by decide⟩ u with
          | .ok u' => decide (LinkInv u' ∧
              (0 < (u'.itable ⟨1, by decide⟩).inum ∧ (u'.itable ⟨1, by decide⟩).inum < NINODES) ∧
              (u'.ino ⟨1, by decide⟩).type = .dir ∧
              dirlookup (u'.ino ⟨1, by decide⟩) ['b'] = some (2, 3) ∧ (u'.inode 3).type = .dir ∧
              3 ≠ (u'.itable ⟨1, by decide⟩).inum ∧
              (∃ ip, 0 < (u'.itable ip).ref ∧
                (u'.itable ip).dev = (u'.itable ⟨1, by decide⟩).dev ∧ (u'.itable ip).inum = 3) ∧
              1 < (u'.ino ⟨1, by decide⟩).nlink ∧
              (unlinkAt ⟨1, by decide⟩ ['b'] u').toOption.map Prod.snd = some 0)
          | .error _ => false
        | .error _ => false) = true := by
      decide +kernel
    rw [hn] at hfacts
    simp only [Bool.and_eq_true, decide_eq_true_eq] at hfacts
    obtain ⟨rfl, hfacts⟩ := hfacts
    obtain ⟨u', hil, hcall⟩ := Loop.bind_eq_ok.mp hcall
    rw [hil] at hfacts
    simp only [decide_eq_true_eq] at hfacts
    obtain ⟨hinv, hdp, hdpdir, hl, hdir, hne, hheld, hlinks, hr⟩ := hfacts
    rw [hcall] at hr
    obtain rfl : r = 0 := Option.some.inj hr
    exact unlinkAt_held_dir_breaks_linkInv hinv hdp hdpdir hl hdir hne hheld hlinks hcall
  -- `/` and `/a` are closed under their entries, so they are all the root reaches
  have hclosed : ∀ d ∈ [1, 2], ∀ de ∈ (s.inode d).ents, de.inum ≠ 0 → de.inum ∈ [1, 2] := by
    decide +kernel
  have hunreach : ¬ Reachable s 3 := by
    intro hr
    have h3 := Reachable.mem_of_closed (S := (· ∈ [1, 2])) (by decide)
      (fun d j hd ⟨_, de, hde, hj, hj0⟩ => hj ▸ hclosed d hd de hde (hj ▸ hj0)) hr
    exact absurd h3 (by decide)
  have hfacts : (s.inode 2).type = .dir ∧ (s.inode 2).nlink = 1 ∧ linkCount s 2 = 2 ∧
      (s.inode 3).type = .dir ∧ (s.inode 3).nlink = 1 ∧
      ∀ ip, (s.itable ip).inum = 3 → (s.itable ip).ref = 0 := by
    decide +kernel
  exact ⟨by decide +kernel, Trace.Run.of_replay_isSome _ (by decide +kernel), by decide +kernel,
    hbreak, hfacts.1, hfacts.2.1, hfacts.2.2.1, hfacts.2.2.2.1, hfacts.2.2.2.2.1,
    hfacts.2.2.2.2.2, hunreach⟩

end Xv6
