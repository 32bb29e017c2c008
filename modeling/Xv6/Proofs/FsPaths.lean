import Xv6.Proofs.FsInodes

/-!
# Path names: `skipelem` and `namex`

`skipelem` taken again and again gives the path's elements: the maximal runs of characters
between slashes, each cut to `DIRSIZ` (`elems_eq`). What `namex` finds is what looking the
elements up one after another finds in the state it started from (`lookupPath` for `namei`,
`lookupParent` for `nameiparent`): its `iput`s can free an inode, but no entry with a
reference to a free inode is valid, so the `ilock` that comes before every lookup refuses it,
and every directory the loop reads is as it was at the start (`FreedOnly`). The loop takes one
more reference, to the entry it returns, and gives back every other (`namex_ref`).

That `ilock` is a panic, and a process reaches it: a directory that is some process's current
directory can be unlinked, and then its parent, which is freed while the child's `..` still
names it; `namei("../x")` from the child then stops the kernel
(`namei_panics_through_freed_parent`).
-/

namespace Xv6

/-! ## The elements of a path -/

/-- The elements `skipelem` gives one after another, as `namex`'s loop takes them. -/
def elems (path : List Char) : List (List Char) :=
  match h : skipelem path with
  | none => []
  | some (name, rest) => name :: elems rest
termination_by path.length
decreasing_by exact (skipelem_spec h).2

section Elems

variable {path name rest : List Char}

theorem elems_of_none (h : skipelem path = none) : elems path = [] := by
  unfold elems
  split <;> simp_all

theorem elems_of_some (h : skipelem path = some (name, rest)) : elems path = name :: elems rest := by
  rw [elems]
  split <;> simp_all

/-- `skipelem` finds no element exactly in a path of slashes only. -/
theorem skipelem_eq_none_iff : skipelem path = none ↔ ∀ c ∈ path, c = '/' := by
  unfold skipelem
  split <;> rename_i hd
  · simpa using hd
  · simp only [reduceCtorEq, false_iff]
    intro hall
    exact hd (by simpa using hall)

/-- What `skipelem` gives: the first piece of the path without its leading slashes, and what
follows that piece, without its leading slashes. -/
theorem skipelem_eq_some (h : skipelem path = some (name, rest)) :
    path.dropWhile (· == '/') ≠ [] ∧
      name = ((path.dropWhile (· == '/')).takeWhile (· != '/')).take DIRSIZ ∧
      rest = ((path.dropWhile (· == '/')).dropWhile (· != '/')).dropWhile (· == '/') := by
  unfold skipelem at h
  split at h
  · cases h
  · next _ hne =>
    obtain ⟨rfl, rfl⟩ := Prod.mk.inj (Option.some.inj h)
    exact ⟨hne, rfl, rfl⟩

/-- A list without its leading slashes does not start with one. -/
theorem head?_dropWhile_slash (cs : List Char) : (cs.dropWhile (· == '/')).head? ≠ some '/' := by
  intro hh
  have := List.head?_dropWhile_not (· == '/') cs
  simp_all

/-- What `skipelem` leaves starts with the next element, or is empty. -/
theorem skipelem_rest_head (h : skipelem path = some (name, rest)) : rest.head? ≠ some '/' := by
  rw [(skipelem_eq_some h).2.2]
  exact head?_dropWhile_slash _

/-- A rest of `skipelem` has no element left exactly when it is empty. -/
theorem elems_rest_eq_nil (h : skipelem path = some (name, rest)) : elems rest = [] ↔ rest = [] := by
  constructor
  · intro he
    cases hs : skipelem rest with
    | none =>
      -- a rest of slashes only is empty, since it does not start with one
      cases rest with
      | nil => rfl
      | cons c cs =>
        have hc := skipelem_eq_none_iff.mp hs c List.mem_cons_self
        exact absurd (by simp [hc]) (skipelem_rest_head h)
    | some e => simp [elems_of_some hs] at he
  · rintro rfl
    exact elems_of_none (skipelem_eq_none_iff.mpr (by simp))

/-! ### The elements are the pieces between slashes -/

/-- The non-empty pieces of a path between slashes. -/
def pieces (path : List Char) : List (List Char) :=
  (path.splitOn '/').filter (· ≠ [])

theorem pieces_nil : pieces [] = [] := rfl

theorem pieces_slash (cs : List Char) : pieces ('/' :: cs) = pieces cs := by
  simp [pieces, List.splitOn_eq_splitOnP, List.splitOnP_cons_eq_if_modifyHead]

theorem pieces_dropWhile (cs : List Char) : pieces (cs.dropWhile (· == '/')) = pieces cs := by
  induction cs with
  | nil => rfl
  | cons c cs ih =>
    by_cases hc : c = '/'
    · subst hc
      simp [pieces_slash, ih]
    · simp [hc]

/-- A path that starts with an element: that element, then the pieces of what follows it. -/
theorem pieces_of_head (hp : path.head? ≠ some '/') (hne : path ≠ []) :
    pieces path = path.takeWhile (· != '/') :: pieces (path.dropWhile (· != '/')) := by
  have hsplit := List.takeWhile_append_dropWhile (p := (· != '/')) (l := path)
  have hw : ∀ x ∈ path.takeWhile (· != '/'), (x == '/') = false := by
    intro x hx
    simpa using List.mem_takeWhile_imp hx
  -- the element is not empty: the path does not start with a slash
  have hwne : path.takeWhile (· != '/') ≠ [] := by
    obtain ⟨c, cs, rfl⟩ := List.exists_cons_of_ne_nil hne
    have hc : c ≠ '/' := fun h => hp (by simp [h])
    simp [hc]
  cases hd : path.dropWhile (· != '/') with
  | nil =>
    -- no slash at all: the path is one piece
    rw [hd, List.append_nil] at hsplit
    rw [pieces, List.splitOn_eq_splitOnP, List.splitOnP_eq_singleton (hsplit ▸ hw), hsplit,
      pieces_nil]
    simp [hne]
  | cons d ds =>
    have hdslash : d = '/' := by
      have := List.head?_dropWhile_not (· != '/') path
      simpa [hd] using this
    subst hdslash
    rw [hd] at hsplit
    rw [pieces_slash]
    conv_lhs => rw [← hsplit]
    simp only [pieces, List.splitOn_eq_splitOnP]
    rw [List.splitOnP_append_cons_of_forall_mem hw _ (by simp)]
    simp [hwne]

/-- Iterating `skipelem` gives the non-empty pieces between slashes, each cut to `DIRSIZ`. -/
theorem elems_eq (path : List Char) : elems path = (pieces path).map (·.take DIRSIZ) := by
  induction path using elems.induct with
  | case1 path h =>
    rw [elems_of_none h, ← pieces_dropWhile]
    have hall := skipelem_eq_none_iff.mp h
    rw [show path.dropWhile (· == '/') = [] by simpa using hall, pieces_nil, List.map_nil]
  | case2 path name rest h ih =>
    obtain ⟨hne, rfl, rfl⟩ := skipelem_eq_some h
    rw [elems_of_some h, ih, ← pieces_dropWhile path,
      pieces_of_head (head?_dropWhile_slash path) hne, pieces_dropWhile, List.map_cons]

end Elems

/-! ## What a path names -/

/-- What `namei` should find from `ip`: each element looked up in the directory reached so far,
`none` as soon as one of them is looked up in something that is not a directory or is not
there. -/
def lookupPath (s : Fs) : Nat → List (List Char) → Option Nat
  | ip, [] => some ip
  | ip, name :: names =>
    if (s.inode ip).type = .dir then
      match dirlookup (s.inode ip) name with
      | some (_, next) => lookupPath s next names
      | none => none
    else none

/-- What `nameiparent` should find from `ip`: the directory that holds the last element, with
that element; `none` for a path without elements. -/
def lookupParent (s : Fs) : Nat → List (List Char) → Option (Nat × List Char)
  | _, [] => none
  | ip, name :: names =>
    if (s.inode ip).type = .dir then
      if names = [] then some (ip, name)
      else
        match dirlookup (s.inode ip) name with
        | some (_, next) => lookupParent s next names
        | none => none
    else none

/-- Where `namex` starts: the root for an absolute path, the inode of the current directory
otherwise (`namex` traps in a process without one). -/
def pathStart (p : Fin NPROC) (path : List Char) (s : Fs) : Nat :=
  if path.head? = some '/' then ROOTINO
  else
    match s.cwd p with
    | some c => (s.itable c).inum
    | none => 0

/-! ## `namex` reads the directories of the state it started from -/

/-- `u` is `s` with some inodes freed: what `iget`, `idup`, `ilock` and `iput` can make of the
inodes of `s`. -/
def FreedOnly (s u : Fs) : Prop :=
  ∀ i, u.inode i = s.inode i ∨ (u.inode i).type = .free

namespace FreedOnly

variable {s u u' : Fs} {ip : Fin NINODE} {h : List (Fin NINODE)}

theorem of_inode (hu : u.inode = s.inode) : FreedOnly s u := fun i => .inl (by rw [hu])

theorem of_inode_eq (hu : FreedOnly s u) (h' : u'.inode = u.inode) : FreedOnly s u' := by
  intro i
  rw [h']
  exact hu i

theorem iput (hu : FreedOnly s u) : FreedOnly s (Xv6.iput ip u) := by
  intro j
  rcases iput_inode_or_free ip j u with he | hf
  · rw [he]
    exact hu j
  · exact .inr hf

/-- An entry that `ilock` accepts holds its inode as it was in `s`: a freed inode is free, and
no entry with a reference to a free inode is valid, so `ilock` refuses it. -/
theorem ilock (hu : FreedOnly s u) (hs : ITable u h) (hl : Xv6.ilock ip u = .ok u') :
    u'.ino ip = s.inode (u.itable ip).inum := by
  obtain ⟨-, hfree, -, hinode, hkeep⟩ := hs.ilock hl
  rw [Fs.ino_eq, hinode, (hkeep ip).1] at hfree ⊢
  exact (hu _).resolve_right hfree

end FreedOnly

section Namex

variable {parent : Bool} {s u t : Fs} {h : List (Fin NINODE)} {r : Option (Fin NINODE × List Char)}

/-- The loop of `namex` from the entry `ip` it holds, with more fuel than characters left, on a
state that is `s` with some inodes freed: it ends where the lookups of the path's elements in
`s` from the inode of `ip` end. -/
theorem namexLoop_lookup {fuel : Nat} {ip : Fin NINODE} {path name : List Char}
    (hu : FreedOnly s u) (hs : ITable u (ip :: h)) (hfuel : path.length < fuel)
    (hrun : namexLoop parent fuel ip path name u = .ok (r, t)) :
    if parent then
      r.map (fun e => ((t.itable e.1).inum, e.2)) = lookupParent s (u.itable ip).inum (elems path)
    else r.map (fun e => (t.itable e.1).inum) = lookupPath s (u.itable ip).inum (elems path) := by
  induction fuel generalizing ip path name u with
  | zero => omega
  | succ fuel ih =>
    unfold namexLoop at hrun
    cases hp : skipelem path with
    | none =>
      rw [hp] at hrun
      rw [elems_of_none hp]
      cases parent
      · obtain ⟨rfl, rfl⟩ := Prod.mk.inj (Except.ok.inj hrun)
        rfl
      · obtain ⟨rfl, rfl⟩ := Prod.mk.inj (Except.ok.inj hrun)
        rfl
    | some e =>
      obtain ⟨name', path'⟩ := e
      rw [hp] at hrun
      rw [elems_of_some hp]
      have hlt := (skipelem_spec hp).2
      obtain ⟨u₁, hl, hrun⟩ := Loop.bind_eq_ok.mp hrun
      have hip := hu.ilock hs hl
      obtain ⟨hstep₁, -, -, hinode₁, hkeep₁⟩ := hs.ilock hl
      have hs₁ := hstep₁.itable
      have hcur : (u₁.itable ip).inum = (u.itable ip).inum := (hkeep₁ ip).1
      rw [hip] at hrun
      split_ifs at hrun with hdir hlast
      · -- `ip` is not a directory
        obtain ⟨rfl, rfl⟩ := Prod.mk.inj (Except.ok.inj hrun)
        cases parent <;> simp [lookupPath, lookupParent, hdir]
      · -- `nameiparent` stops at the last element
        obtain ⟨hparent, hrest⟩ := hlast
        obtain ⟨rfl, rfl⟩ := Prod.mk.inj (Except.ok.inj hrun)
        have hnil := (elems_rest_eq_nil hp).mpr hrest
        simp [hparent, lookupParent, not_not.mp hdir, hnil, hcur]
      · have hrest : parent = true → elems path' ≠ [] := fun hpar hnil =>
          hlast ⟨hpar, (elems_rest_eq_nil hp).mp hnil⟩
        cases hlook : dirlookup (s.inode (u.itable ip).inum) name' with
        | none =>
          rw [hlook] at hrun
          obtain ⟨rfl, rfl⟩ := Prod.mk.inj (Except.ok.inj hrun)
          cases parent
          · simp [lookupPath, not_not.mp hdir, hlook]
          · simp [lookupParent, not_not.mp hdir, hlook, hrest rfl]
        | some e =>
          obtain ⟨off, next⟩ := e
          rw [hlook] at hrun
          obtain ⟨⟨nip, u₂⟩, hg, hrun⟩ := Loop.bind_eq_ok.mp hrun
          -- `dirlookup` takes the reference to `next`, then the one to `ip` goes back
          have hlive := hs₁.live ip (hs₁.one_le_ref List.mem_cons_self)
          obtain ⟨hstep₂, hinode₂, hnext, -⟩ := hs₁.iget hlive.1 (dirlookup_spec hlook).2.2 hg
          have hstep₃ := (hstep₂.itable.perm (List.Perm.swap ip nip h)).iput_head
          have hu₃ : FreedOnly s (Xv6.iput ip u₂) :=
            ((hu.of_inode_eq hinode₁).of_inode_eq hinode₂).iput
          have hnext' := ih hu₃ hstep₃.itable (by omega) hrun
          rw [iput_itable_inum, hnext] at hnext'
          cases parent
          · simpa [lookupPath, not_not.mp hdir, hlook] using hnext'
          · simpa [lookupParent, not_not.mp hdir, hlook, hrest rfl] using hnext'

theorem namex_lookup {p : Fin NPROC} {path : List Char} (hs : ITable s h)
    (hrun : namex p path parent s = .ok (r, t)) :
    if parent then
      r.map (fun e => ((t.itable e.1).inum, e.2)) =
        lookupParent s (pathStart p path s) (elems path)
    else r.map (fun e => (t.itable e.1).inum) = lookupPath s (pathStart p path s) (elems path) := by
  unfold namex at hrun
  dsimp only at hrun
  unfold pathStart
  split at hrun <;> rename_i hroot
  · -- from the root, whose entry `iget` finds or makes
    rw [if_pos hroot]
    obtain ⟨⟨ip, s₁⟩, hg, hrun⟩ := Loop.bind_eq_ok.mp hrun
    obtain ⟨hstep, hinode, hroot', -⟩ := hs.iget rfl (by decide) hg
    rw [← hroot']
    exact namexLoop_lookup (.of_inode hinode) hstep.itable (by omega) hrun
  · -- from the current directory, which holds its entry
    rw [if_neg hroot]
    obtain ⟨c, hc, hrun⟩ := Loop.bind_eq_ok.mp hrun
    have hcwd := Fs.curdir_eq_ok.mp hc
    have hstep := hs.idup (hs.one_le_ref_of_held (one_le_inodeRefs_cwd hcwd))
    have hc' : ((idup c s).itable c).inum = (s.itable c).inum := by simp [idup_itable]
    have hloop := namexLoop_lookup (FreedOnly.of_inode (s := s) (u := idup c s) rfl) hstep.itable (by omega) hrun
    rw [hc'] at hloop
    rw [hcwd]
    exact hloop

/-- What `namei` returns is what the elements of the path lead to in the state it started
from. -/
theorem namei_lookup {p : Fin NPROC} {path : List Char} {ip : Option (Fin NINODE)}
    (hs : ITable s h) (hrun : namei p path s = .ok (ip, t)) :
    ip.map (fun jp => (t.itable jp).inum) = lookupPath s (pathStart p path s) (elems path) := by
  unfold namei at hrun
  obtain ⟨⟨r₀, t₀⟩, hn, hrun⟩ := Loop.bind_eq_ok.mp hrun
  obtain ⟨rfl, rfl⟩ := Prod.mk.inj (Except.ok.inj hrun)
  simpa [Option.map_map, Function.comp_def] using namex_lookup hs hn

/-- What `nameiparent` returns is the directory the elements before the last lead to, with the
last element. -/
theorem nameiparent_lookup {p : Fin NPROC} {path : List Char} (hs : ITable s h)
    (hrun : nameiparent p path s = .ok (r, t)) :
    r.map (fun e => ((t.itable e.1).inum, e.2)) =
      lookupParent s (pathStart p path s) (elems path) := by
  simpa using namex_lookup hs hrun

/-- `namex` holds one more reference to the entry it returns and gives back every other. -/
theorem namex_ref {p : Fin NPROC} {path : List Char} (hs : ITable s h)
    (hrun : namex p path parent s = .ok (r, t)) (ip : Fin NINODE) :
    (t.itable ip).ref = (s.itable ip).ref + if r.map Prod.fst = some ip then 1 else 0 := by
  obtain ⟨hstep, -⟩ := namex_ok hs hrun
  rw [hstep.itable.ref_eq ip, hs.ref_eq ip, hstep.same.inodeRefs_eq, List.count_append]
  cases r with
  | none => simp
  | some e =>
    by_cases hei : e.1 = ip
    · simp [hei]
      omega
    · simp [hei]

end Namex

/-! ## A current directory whose parent was freed -/

/-- On the image with only the root, `initproc` makes `/a` and `/a/b`, moves into `/a/b` and
unlinks it, then unlinks `/a`, which is empty by then and is freed (inode 2). The `..` of `b`
(inode 3), the current directory, still names inode 2. Looking `../x` up from `b` stops at
that free inode, which is not a directory, but `namei("../x")` takes it and panics in
`ilock`. -/
theorem namei_panics_through_freed_parent :
    let evs : List (Fin NPROC × FsCall) :=
      [(initproc, .mkdir ['/', 'a']), (initproc, .mkdir ['/', 'a', '/', 'b']),
       (initproc, .chdir ['/', 'a', '/', 'b']), (initproc, .unlink ['/', 'a', '/', 'b']),
       (initproc, .unlink ['/', 'a'])]
    let s := (Trace.replay Fs.next (Fs.boot []) evs).getD (Fs.boot [])
    Trace.Run FsStep (Fs.boot []) evs s ∧ (s.inode 2).type = .free ∧
      (∃ c, s.cwd initproc = some c ∧ (s.itable c).inum = 3 ∧
        dirlookup (s.ino c) ['.', '.'] = some (1, 2)) ∧
      lookupPath s (pathStart initproc ['.', '.', '/', 'x'] s) (elems ['.', '.', '/', 'x']) = none ∧
      namei initproc ['.', '.', '/', 'x'] s = .error "ilock: no type" := by
  intro evs s
  have helems : elems ['.', '.', '/', 'x'] = [['.', '.'], ['x']] := by
    rw [elems_eq]
    decide
  have hpanic : (namei initproc ['.', '.', '/', 'x'] s).map Prod.fst = .error "ilock: no type" := by
    decide +kernel
  rw [helems]
  exact ⟨Trace.Run.of_replay_isSome _ (by decide +kernel), by decide +kernel,
    ⟨⟨2, by decide⟩, by decide +kernel, by decide +kernel, by decide +kernel⟩, by decide +kernel,
    Loop.map_eq_error.mp hpanic⟩

end Xv6
