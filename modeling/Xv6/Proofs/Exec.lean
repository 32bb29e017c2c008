import Xv6.Proofs.Copy
import Xv6.Proofs.Kfork

/-!
# The memory of `kexec`

`kexec` by a process `p`, the holder `x`, builds the new user image in a page table of its own,
which a second holder `y` has while `x` keeps the old one: `proc_pagetable` makes it, the loop
over the program headers grows it with `uvmalloc`, and the user stack follows, its guard page
cleared of `PTE_U` by `uvmclear`. The argument strings and the `argv[]` array go onto the new
stack with `copyout` into the new table; where a page is missing there, `vmfault` asks the new
table but maps into `p->pagetable`, the old one, below the old size. On `goto bad` the new table
is freed; on success the old one is, and the new tree becomes that of `x`.

Along the way both images keep `UserMem`, and the new one has every page below its size mapped
(`Dense`): that is what bounds the size below `TRAPFRAME` when a segment reaches past it
(`VmInv.room`).
-/

namespace Xv6

/-! ## `walk` and `mappages` where a leaf is there -/

/-- Where the level-0 page is there, `walk(pagetable, va, 1)` allocates nothing. -/
theorem walk_true_of_lowPage {r va l : Nat} {vm : Vm} (hva : va < MAXVA)
    (hl : lowPage vm.mem r (PX 2 va) (PX 1 va) = some l) :
    walk r va true vm = .ok (some (l, PX 0 va), vm) := by
  simp only [lowPage, midPage] at hl
  obtain ⟨m, hm, hml⟩ := Option.bind_eq_some_iff.mp hl
  obtain ⟨hvm, rfl⟩ := child_eq_some.mp hm
  obtain ⟨hvl, rfl⟩ := child_eq_some.mp hml
  unfold walk
  rw [if_neg (Nat.not_le.mpr hva), walkLevel_true, if_pos hvm]
  simp only [walkLevel_true, if_pos hvl]

/-- `mappages` of one page over a leaf that is there panics. -/
theorem mappages_remap {r va pa perm w : Nat} {vm : Vm} (hva : va % PGSIZE = 0)
    (hmax : va < MAXVA) (hw : leafAt vm.mem r va = some w) :
    mappages r va PGSIZE pa perm vm = .error "mappages: remap" := by
  simp only [leafAt, leafPte] at hw
  obtain ⟨l, hl, hv⟩ := Option.bind_eq_some_iff.mp hw
  have hvalid : vm.mem l (PX 0 va) &&& PTE_V ≠ 0 := by
    by_contra hn
    simp [Valid, hn] at hv
  have hone : PGSIZE / PGSIZE = 0 + 1 := Nat.div_self PGSIZE_pos
  rw [mappages, if_neg (by simp [hva]), if_neg (by decide), if_neg (by decide), hone, mappagesLoop,
    walk_true_of_lowPage hmax hl, Loop.ok_bind]
  simp only [if_pos hvalid]
  rfl

/-- A PTE whose page is a managed page fits in 64 bits. -/
theorem lt_of_managed_PTE2PA {«end» w : Nat} (hm : Managed «end» (PTE2PA w)) : w < 2 ^ 64 := by
  have h := hm.2.2
  rw [PTE2PA_eq] at h
  unfold PHYSTOP KERNBASE PGSIZE at h
  omega

/-! ## The stack guard page -/

section Clear

variable {ι : Type} [DecidableEq ι] {«end» : Nat} {k0 : Kmem} {vm : Vm} {sp : ι → Space}
  {x : ι} {r : Nat}

/-- `uvmclear(pagetable, va)` on a user page of the tree of `x`: the leaf loses `PTE_U` but keeps
its page, so the invariant holds and only that leaf moved, still there. -/
theorem VmInv.uvmclear (h : VmInv «end» k0 vm sp) (hx : (sp x).root = some r) {va : Nat}
    (hva : va % PGSIZE = 0) (htf : va < TRAPFRAME) (hw : (leafAt vm.mem r va).isSome) :
    ∃ vm', Xv6.uvmclear r va vm = .ok vm' ∧ VmInv «end» k0 vm' sp ∧
      LeavesOut vm vm' sp x (· = va) ∧ (leafAt vm'.mem r va).isSome := by
  have hmax : va < MAXVA := lt_trans htf (by decide)
  obtain ⟨w, hw⟩ := Option.isSome_iff_exists.mp hw
  obtain ⟨l, hwalk, hl⟩ := walk_of_leafAt hmax hw
  have hlow : lowPage vm.mem r (PX 2 va) (PX 1 va) = some l := by
    have h2 := (walk_false vm hmax : walk r va false vm = _).symm.trans hwalk
    simp only [Except.ok.injEq, Prod.mk.injEq, Option.map_eq_some_iff, Prod.mk.injEq] at h2
    obtain ⟨l', hl', rfl, -⟩ := h2.1
    exact hl'
  have hvalid : Valid w := by
    simp only [leafAt, leafPte, hlow, Option.bind_some] at hw
    by_contra hn
    simp [hl, hn] at hw
  -- the page stays that of the leaf: `w` is below `2 ^ 64`, its page being managed
  have hown := pageAt_leafAt hx hva htf hw
  obtain ⟨hclear, hpa⟩ := clear_U (lt_of_managed_PTE2PA (h.owned _ _ hown).1)
  have hu := (userLeaf_PX hva hmax).mpr htf
  obtain ⟨h', -, hout, hleaf⟩ := h.leafWrite_same hx (PX_lt 2 va) (PX_lt 1 va) (PX_lt 0 va) hlow
    (w := w &&& (2 ^ 64 - 1 - PTE_U)) (by rw [hown, if_pos ⟨hu, hclear.mpr hvalid⟩, hpa])
  rw [vaOf_PX_of_mod hva hmax] at hout
  refine ⟨_, by simp [Xv6.uvmclear, hwalk, hl], h', hout, ?_⟩
  rw [leafAt, hleaf, if_pos (hclear.mpr hvalid)]
  rfl

end Clear

/-! ## Two holders at work -/

section But

variable {ι : Type} {vm₁ vm₂ vm₃ : Vm} {sp : ι → Space} {x y : ι}

/-- No leaf moved but those of `x` and `y`. -/
def LeavesBut (vm vm' : Vm) (sp : ι → Space) (x y : ι) : Prop :=
  ∀ z r, z ≠ x → z ≠ y → (sp z).root = some r → ∀ i j k, i < 512 → j < 512 → k < 512 →
    leafPte vm'.mem r i j k = leafPte vm.mem r i j k

theorem LeavesOut.but_left {S : Nat → Prop} (h : LeavesOut vm₁ vm₂ sp x S) (y : ι) :
    LeavesBut vm₁ vm₂ sp x y :=
  fun z r hzx _ hz i j k hi hj hk => h z r hz i j k hi hj hk fun e => absurd e hzx

theorem LeavesOut.but_right {S : Nat → Prop} (h : LeavesOut vm₁ vm₂ sp y S) (x : ι) :
    LeavesBut vm₁ vm₂ sp x y :=
  fun z r _ hzy hz i j k hi hj hk => h z r hz i j k hi hj hk fun e => absurd e hzy

theorem LeavesBut.trans (h₁ : LeavesBut vm₁ vm₂ sp x y) (h₂ : LeavesBut vm₂ vm₃ sp x y) :
    LeavesBut vm₁ vm₃ sp x y :=
  fun z r hzx hzy hz i j k hi hj hk =>
    (h₂ z r hzx hzy hz i j k hi hj hk).trans (h₁ z r hzx hzy hz i j k hi hj hk)

/-- Only the roots of the other holders count. -/
theorem LeavesBut.of_root {sp' : ι → Space} (h : LeavesBut vm₁ vm₂ sp' x y)
    (hsp : ∀ z, z ≠ x → z ≠ y → (sp z).root = (sp' z).root) : LeavesBut vm₁ vm₂ sp x y :=
  fun z r hzx hzy hz => h z r hzx hzy (by rw [← hsp z hzx hzy]; exact hz)

end But

/-! ## Handing a tree to another holder -/

section Move

variable {ι : Type} {«end» : Nat} {k0 : Kmem} {vm : Vm} {sp : ι → Space} {x y : ι} {r : Nat}

/-- The positions of the trees with their holders renamed by `f`; the trapframes stay. -/
def Pos.mapTbl (f : ι → ι) : Pos ι → Pos ι
  | .tf z => .tf z
  | .tbl z n => .tbl (f z) n

theorem Pos.mapTbl_injective {f : ι → ι} (hf : Function.Injective f) :
    Function.Injective (Pos.mapTbl f) := by
  intro P Q h
  cases P <;> cases Q <;> simp only [Pos.mapTbl, Pos.tf.injEq, Pos.tbl.injEq, reduceCtorEq] at h
  · rw [h]
  · rw [hf h.1, h.2]

/-- Holders that own, position by position, what others owned under an injective renaming, and
have no other roots, keep the invariant. -/
theorem VmInv.relabel {sp' : ι → Space} (h : VmInv «end» k0 vm sp) {f : Pos ι → Pos ι}
    (hf : Function.Injective f) (hpage : pageAt vm.mem sp' = pageAt vm.mem sp ∘ f)
    (hroot : ∀ z r, (sp' z).root = some r → ∃ w, (sp w).root = some r) :
    VmInv «end» k0 vm sp' where
  kmem := h.kmem
  run := h.run
  excl := hpage ▸ h.excl.comp hf
  owned P a hP := h.owned (f P) a (by rw [hpage] at hP; exact hP)
  interior z r hz := (hroot z r hz).elim fun w hw => h.interior w r hw

variable [DecidableEq ι]

/-- Giving `x` the tree it has changes nothing. -/
theorem Space.setRoot_self (h : (sp x).root = some r) : Space.setRoot sp x r = sp := by
  rw [Space.setRoot, ← h]
  exact Function.update_eq_self x sp

@[simp] theorem Space.dropRoot_tf (sp : ι → Space) (y z : ι) :
    (Space.dropRoot sp y z).tf = (sp z).tf := by
  by_cases hz : z = y
  · subst hz
    simp [Space.dropRoot]
  · simp [Space.dropRoot, hz]

/-- The tree of `y` handed to `x`, which has none. -/
theorem VmInv.moveRoot (h : VmInv «end» k0 vm sp) (hxy : x ≠ y) (hx : (sp x).root = none)
    (hy : (sp y).root = some r) : VmInv «end» k0 vm (Space.setRoot (Space.dropRoot sp y) x r) := by
  refine h.relabel (Pos.mapTbl_injective (Equiv.swap x y).injective) ?_ fun z r' hz => ?_
  · funext P
    cases P with
    | tf z => simp [pageAt, Pos.mapTbl]
    | tbl z n =>
      by_cases hzx : z = x
      · subst hzx
        simp [pageAt, Pos.mapTbl, Space.setRoot, hy]
      by_cases hzy : z = y
      · subst hzy
        simp [pageAt, Pos.mapTbl, Space.setRoot, Space.dropRoot, hzx, hx]
      · simp [pageAt, Pos.mapTbl, Space.setRoot, Space.dropRoot, hzx, hzy,
          Equiv.swap_apply_of_ne_of_ne hzx hzy]
  · by_cases hzx : z = x
    · subst hzx
      simp only [Space.setRoot, Function.update_self, Option.some.injEq] at hz
      exact ⟨y, hz ▸ hy⟩
    by_cases hzy : z = y
    · subst hzy
      simp [Space.setRoot, Space.dropRoot, hzx] at hz
    · exact ⟨z, by simpa [Space.setRoot, Space.dropRoot, hzx, hzy] using hz⟩

end Move

/-! ## Faults into the old table -/

section Into

variable {ι : Type} [DecidableEq ι] {«end» : Nat} {k0 : Kmem} {vm vm' : Vm} {sp : ι → Space}
  {x : ι} {p : Proc}

variable (hend : KERNBASE ≤ «end»)
include hend

/-- `vmfault(pagetable, va, read)` with any `pagetable`, in a system call of the process `p`
whose memory keeps `UserMem`: `ismapped` asks `pagetable`, but the fresh page goes into
`p->pagetable`. When it returns, the invariant holds and only the leaf of `PGROUNDDOWN(va)` in
the tree of `p` moved; over a leaf of `p->pagetable` that is there, `mappages` panics. -/
theorem UserMem.vmfault_into (hp : UserMem «end» k0 vm sp x p) {pt va mem : Nat}
    (hrun : Xv6.vmfault «end» p.sz p.pagetable pt va vm = .ok (mem, vm')) :
    UserMem «end» k0 vm' sp x p ∧ LeavesOut vm vm' sp x (· = PGROUNDDOWN va) := by
  have hkept : LeavesOut vm vm sp x (· = PGROUNDDOWN va) := (LeavesKept.refl vm sp).out x _
  by_cases hsz : p.sz ≤ va
  · -- not below `p->sz`: nothing happens
    simp only [Xv6.vmfault, if_pos hsz, Loop.pure_eq_ok, Except.ok.injEq, Prod.mk.injEq] at hrun
    rw [← hrun.2]
    exact ⟨hp, hkept⟩
  have hmax : PGROUNDDOWN va < MAXVA := by
    have := PGROUNDDOWN_le va
    have := hp.sz_le
    have : TRAPFRAME < MAXVA := by decide
    omega
  by_cases hm : (leafAt vm.mem pt (PGROUNDDOWN va)).isSome
  · -- a leaf in `pagetable`: nothing happens
    simp only [Xv6.vmfault, if_neg hsz, ismapped_eq vm hmax, Loop.ok_bind, hm, if_true,
      Loop.pure_eq_ok, Except.ok.injEq, Prod.mk.injEq] at hrun
    rw [← hrun.2]
    exact ⟨hp, hkept⟩
  cases hw : leafAt vm.mem p.pagetable (PGROUNDDOWN va) with
  | none =>
    -- no leaf in either table: the run is that of `vmfault` on `p->pagetable` itself
    obtain ⟨mem', vm'', hrun', hp', -, hcase⟩ := hp.vmfault hend va
    have heq : Xv6.vmfault «end» p.sz p.pagetable pt va vm =
        Xv6.vmfault «end» p.sz p.pagetable p.pagetable va vm := by
      simp [Xv6.vmfault, hsz, ismapped_eq vm hmax, hm, hw]
    rw [heq, hrun', Except.ok.injEq, Prod.mk.injEq] at hrun
    rw [← hrun.2]
    rcases hcase with ⟨-, -, -, -, -, -, hout, -⟩ | ⟨-, hout, -⟩
    · exact ⟨hp', hout⟩
    · exact ⟨hp', hout.mono fun _ h => h.elim⟩
  | some w =>
    -- a leaf in `p->pagetable` alone: `mappages` panics, unless `kalloc` found no page
    obtain ⟨h1, -, hpg⟩ := hp.inv.kalloc hend
    by_cases hz : vm.kalloc.2 = 0
    · simp only [Xv6.vmfault, if_neg hsz, ismapped_eq vm hmax, Loop.ok_bind, hm, if_false, hz,
        if_true, Bool.false_eq_true, Loop.pure_eq_ok, Except.ok.injEq, Prod.mk.injEq] at hrun
      rw [← hrun.2]
      exact ⟨⟨h1, hp.root, hp.sz_le, by rw [Vm.kalloc_mem]; exact hp.below⟩,
        fun _ _ _ _ _ _ _ _ _ _ => by rw [Vm.kalloc_mem]⟩
    -- the page `kalloc` gave is no page of a tree, so zeroing it keeps the leaf
    have hw' : leafAt (vm.kalloc.1.zero vm.kalloc.2).mem p.pagetable (PGROUNDDOWN va) = some w := by
      rw [leafAt, leafPte_congr_nodes (zero_agree (hpg hz).1.held.not_owned hp.root) (PX_lt 2 _)
        (PX_lt 1 _), Vm.kalloc_mem]
      exact hw
    simp [Xv6.vmfault, hsz, ismapped_eq vm hmax, hm, hz,
      mappages_remap (PGROUNDDOWN_mod va) hmax hw'] at hrun

/-- The loop of `copyout(pagetable, dstva, src, len)` into any `pagetable`, in a system call of
the process `p` whose memory keeps `UserMem`: it changes memory only by the faults of
`vmfault`, so when it returns the invariant holds and only leaves of `p` moved. -/
theorem UserMem.copyoutLoop_into {pt : Nat} (fuel : Nat) :
    ∀ {dstva len : Nat} {r : Int} {vm vm' : Vm}, UserMem «end» k0 vm sp x p →
      Xv6.copyoutLoop «end» p.sz p.pagetable pt fuel dstva len vm = .ok (r, vm') →
      UserMem «end» k0 vm' sp x p ∧ LeavesOut vm vm' sp x fun _ => True := by
  induction fuel with
  | zero =>
    intro dstva len r vm vm' hp hrun
    simp only [Xv6.copyoutLoop, Except.ok.injEq, Prod.mk.injEq] at hrun
    rw [← hrun.2]
    exact ⟨hp, (LeavesKept.refl vm sp).out x _⟩
  | succ fuel ih =>
    intro dstva len r vm vm' hp hrun
    have hkept := (LeavesKept.refl vm sp).out x fun _ => True
    by_cases hlen : len = 0
    · simp only [Xv6.copyoutLoop, if_pos hlen, Loop.pure_eq_ok, Loop.ok_bind, Except.ok.injEq,
        Prod.mk.injEq] at hrun
      rw [← hrun.2]
      exact ⟨hp, hkept⟩
    rw [Xv6.copyoutLoop, if_neg hlen] at hrun
    by_cases hmax : MAXVA ≤ PGROUNDDOWN dstva
    · simp only [if_pos hmax, Loop.pure_eq_ok, Loop.ok_bind, Except.ok.injEq,
        Prod.mk.injEq] at hrun
      rw [← hrun.2]
      exact ⟨hp, hkept⟩
    simp only [if_neg hmax] at hrun
    obtain ⟨pa0, -, hpage⟩ := Loop.bind_eq_ok.mp hrun
    -- the page, from `walkaddr` or from a fault
    obtain ⟨a, hp1, hout1, hrest⟩ : ∃ a : Nat × Vm, UserMem «end» k0 a.2 sp x p ∧
        LeavesOut vm a.2 sp x (fun _ => True) ∧ _ := by
      split at hpage
      · obtain ⟨a, hvf, hrest⟩ := Loop.bind_eq_ok.mp hpage
        obtain ⟨hp1, hout1⟩ := hp.vmfault_into hend hvf
        exact ⟨a, hp1, hout1.mono fun _ _ => trivial, hrest⟩
      · exact ⟨(pa0, vm), hp, hkept, hpage⟩
    by_cases hpa : a.1 = 0
    · simp only [if_pos hpa, Loop.pure_eq_ok, Except.ok.injEq, Prod.mk.injEq] at hrest
      rw [← hrest.2]
      exact ⟨hp1, hout1⟩
    rw [if_neg hpa, walk_false a.2 (Nat.lt_of_not_le hmax), Loop.ok_bind] at hrest
    -- no level-0 page is `*pte` at `0`, a trap; a read-only page ends the copy
    cases hl : lowPage a.2.mem pt (PX 2 (PGROUNDDOWN dstva)) (PX 1 (PGROUNDDOWN dstva)) with
    | none => simp [hl] at hrest
    | some l =>
      simp only [hl, Option.map_some] at hrest
      split at hrest
      · simp only [Loop.pure_eq_ok, Except.ok.injEq, Prod.mk.injEq] at hrest
        rw [← hrest.2]
        exact ⟨hp1, hout1⟩
      · obtain ⟨hp', hout'⟩ := ih hp1 hrest
        exact ⟨hp', (hout1.trans hout').mono fun _ _ => trivial⟩

/-- The loop of `kexec` that copies the argument strings onto the new stack in `pagetable`, by
the process `p` whose memory keeps `UserMem`: it changes memory only by the faults of its
`copyout`s, into the old table, so when it returns the invariant holds and only leaves of `p`
moved. -/
theorem UserMem.kexecArgs {pt : Nat} {stackbase : UInt64} (argv : List Nat) :
    ∀ {argc : Nat} {ustack : UInt64} {res : Option (Nat × UInt64)} {vm vm' : Vm},
      UserMem «end» k0 vm sp x p →
      Xv6.kexecArgs «end» p pt stackbase argv argc ustack vm = .ok (res, vm') →
      UserMem «end» k0 vm' sp x p ∧ LeavesOut vm vm' sp x fun _ => True := by
  induction argv with
  | nil =>
    intro argc ustack res vm vm' hp hrun
    simp only [Xv6.kexecArgs, Except.ok.injEq, Prod.mk.injEq] at hrun
    rw [← hrun.2]
    exact ⟨hp, (LeavesKept.refl vm sp).out x _⟩
  | cons len argv ih =>
    intro argc ustack res vm vm' hp hrun
    have hkept := (LeavesKept.refl vm sp).out x fun _ => True
    simp only [Xv6.kexecArgs] at hrun
    split_ifs at hrun with hmax hbase
    · simp only [Loop.pure_eq_ok, Except.ok.injEq, Prod.mk.injEq] at hrun
      rw [← hrun.2]
      exact ⟨hp, hkept⟩
    · simp only [Loop.pure_eq_ok, Except.ok.injEq, Prod.mk.injEq] at hrun
      rw [← hrun.2]
      exact ⟨hp, hkept⟩
    obtain ⟨⟨r, vm₁⟩, hcopy, hrest⟩ := Loop.bind_eq_ok.mp hrun
    obtain ⟨hp₁, hout₁⟩ := UserMem.copyoutLoop_into hend (len + 1) hp hcopy
    split_ifs at hrest with hr
    · simp only [Loop.pure_eq_ok, Except.ok.injEq, Prod.mk.injEq] at hrest
      rw [← hrest.2]
      exact ⟨hp₁, hout₁⟩
    obtain ⟨hp', hout'⟩ := ih hp₁ hrest
    exact ⟨hp', (hout₁.trans hout').mono fun _ _ => trivial⟩

end Into

/-! ## Growing the new image -/

/-- The permissions of a segment are flag bits. -/
theorem flags2perm_lt (flags : Nat) : PTE_R ||| PTE_U ||| flags2perm flags < 1024 := by
  unfold flags2perm
  split_ifs <;> decide

section Grow

variable {ι : Type} [DecidableEq ι] {«end» : Nat} {k0 : Kmem} {vm : Vm} {sp : ι → Space}
  {y : ι} {q : Proc}

variable (hend : KERNBASE ≤ «end»)
include hend

/-- `uvmalloc(pagetable, sz, newsz, xperm)` on the image `q` of the holder `y`, all of whose
pages below its size are mapped, to any `newsz`: it cannot panic and moves leaves of `y` only. It
returns `0` with the image as it was, or the size `max(sz, newsz)`, every page below which is
then mapped. -/
theorem UserMem.uvmallocDense (hq : UserMem «end» k0 vm sp y q)
    (hd : Dense vm.mem q.pagetable (PGROUNDUP q.sz)) (newsz xperm : Nat)
    (hperm : PTE_R ||| PTE_U ||| xperm < 1024) :
    ∃ sz vm', Xv6.uvmalloc «end» q.pagetable q.sz newsz xperm vm = .ok (sz, vm') ∧
      LeavesOut vm vm' sp y (fun _ => True) ∧
      ((sz = 0 ∧ UserMem «end» k0 vm' sp y q) ∨
        (sz ≠ 0 ∧ sz = max q.sz newsz ∧ UserMem «end» k0 vm' sp y { q with sz := sz } ∧
          Dense vm'.mem q.pagetable (PGROUNDUP sz))) := by
  obtain ⟨sz, vm', hrun, h', -, hcase⟩ :=
    hq.inv.uvmalloc hend hq.root q.sz newsz xperm hperm hq.below (.inr hd)
  rcases hcase with ⟨rfl, hle, hb, hmapped, hout, -⟩ | ⟨rfl, hb, hout, -, -⟩
  · refine ⟨_, vm', hrun, hout.mono fun _ _ => trivial, ?_⟩
    by_cases hz : max q.sz newsz = 0
    · -- nothing to map from size `0`
      have hsz : q.sz = 0 := by omega
      rw [hz, ← hsz] at hb
      exact .inl ⟨hz, ⟨h', hq.root, hq.sz_le, hb⟩⟩
    refine .inr ⟨hz, rfl, ⟨h', hq.root, le_trans (le_PGROUNDUP _) hle, hb⟩, fun v hv hlt => ?_⟩
    by_cases hold : v < PGROUNDUP q.sz
    · -- an old page: its leaf did not move
      rw [hout.leafAt hq.root hv (lt_trans (lt_of_lt_of_le hlt hle) (by decide))
        fun hS => absurd hS.1 (Nat.not_le.mpr hold)]
      exact hd v hv hold
    · obtain ⟨pa, -, -, hleaf⟩ := hmapped v hv (Nat.le_of_not_lt hold) hlt
      simp [hleaf]
  · exact ⟨0, vm', hrun, hout.mono fun _ _ => trivial, .inl ⟨rfl, ⟨h', hq.root, hq.sz_le, hb⟩⟩⟩

/-- The loop of `kexec` over the program headers, from the size `sz` of the new image `q` of the
holder `y`, all of whose pages below `sz` are mapped: when it returns, the image keeps `UserMem`
with the size reached, with every page below it mapped when the loop got to its end, and only
leaves of `y` moved. -/
theorem UserMem.kexecLoad (segs : List ElfSeg) :
    ∀ {sz sz' : Nat} {vm vm' : Vm} {ok : Bool}, UserMem «end» k0 vm sp y { q with sz := sz } →
      Dense vm.mem q.pagetable (PGROUNDUP sz) →
      Xv6.kexecLoad «end» q.pagetable segs sz vm = .ok (ok, sz', vm') →
      UserMem «end» k0 vm' sp y { q with sz := sz' } ∧ LeavesOut vm vm' sp y (fun _ => True) ∧
        (ok = true → Dense vm'.mem q.pagetable (PGROUNDUP sz')) := by
  induction segs with
  | nil =>
    intro sz sz' vm vm' ok hq hd hrun
    simp only [Xv6.kexecLoad, Except.ok.injEq, Prod.mk.injEq] at hrun
    obtain ⟨rfl, rfl, rfl⟩ := hrun
    exact ⟨hq, (LeavesKept.refl vm sp).out y _, fun _ => hd⟩
  | cons seg segs ih =>
    intro sz sz' vm vm' ok hq hd hrun
    have hkept := (LeavesKept.refl vm sp).out y fun _ => True
    -- `goto bad` before anything is allocated
    have hbad : ∀ {sz₁ : Nat} {vm₁ : Vm}, UserMem «end» k0 vm₁ sp y { q with sz := sz₁ } →
        LeavesOut vm vm₁ sp y (fun _ => True) → (false, sz₁, vm₁) = (ok, sz', vm') →
        UserMem «end» k0 vm' sp y { q with sz := sz' } ∧ LeavesOut vm vm' sp y (fun _ => True) ∧
          (ok = true → Dense vm'.mem q.pagetable (PGROUNDUP sz')) := by
      intro sz₁ vm₁ hq₁ hout₁ he
      cases he
      exact ⟨hq₁, hout₁, fun h => absurd h Bool.false_ne_true⟩
    rw [Xv6.kexecLoad] at hrun
    cases hph : seg.ph with
    | none =>
      rw [hph, Except.ok.injEq] at hrun
      exact hbad hq hkept hrun
    | some ph =>
      simp only [hph] at hrun
      split_ifs at hrun with hload hmem hwrap halign
      · exact ih hq hd hrun
      · exact hbad hq hkept (Except.ok.inj hrun)
      · exact hbad hq hkept (Except.ok.inj hrun)
      · exact hbad hq hkept (Except.ok.inj hrun)
      obtain ⟨sz₁, vm₁, halloc, hout₁, hcase⟩ :=
        UserMem.uvmallocDense hend hq hd (ph.vaddr + ph.memsz).toNat _ (flags2perm_lt ph.flags)
      rw [halloc, Loop.ok_bind] at hrun
      rcases hcase with ⟨rfl, hq₁⟩ | ⟨hz, -, hq₁, hd₁⟩
      · -- out of memory
        rw [if_pos rfl] at hrun
        exact hbad hq₁ hout₁ (Except.ok.inj hrun)
      rw [if_neg hz] at hrun
      -- `loadseg` reads only
      obtain ⟨r, -, hrest⟩ := Loop.bind_eq_ok.mp hrun
      split_ifs at hrest with hr
      · exact hbad hq₁ hout₁ (Except.ok.inj hrest)
      obtain ⟨hq', hout', hd'⟩ := ih hq₁ hd₁ hrest
      exact ⟨hq', (hout₁.trans hout').mono fun _ _ => trivial, hd'⟩

end Grow

/-! ## The new image -/

section Image

variable {ι : Type} [DecidableEq ι] {«end» : Nat} {k0 : Kmem} {vm vm' : Vm} {sp : ι → Space}
  {x y : ι} {p : Proc} {pt : Nat}

variable (hend : KERNBASE ≤ «end»)
include hend

/-- `kexec` from the loop over the program headers to the copy of `argv[]`, by the process `p`,
the holder `x`, into the new tree `pt` of the holder `y`, which maps nothing below `TRAPFRAME`:
when it returns, with `argc` or for `goto bad`, `p` keeps `UserMem`, so does the new image with
the size reached, and no leaf of another holder moved. -/
theorem UserMem.kexecImage (hxy : x ≠ y) (hp : UserMem «end» k0 vm sp x p)
    (hq : UserMem «end» k0 vm sp y { p with pagetable := pt, sz := 0 }) {segs : List ElfSeg}
    {argv : List Nat} {res : Option Nat} {sz : Nat}
    (hrun : Xv6.kexecImage «end» p pt segs argv vm = .ok (res, sz, vm')) :
    UserMem «end» k0 vm' sp x p ∧ UserMem «end» k0 vm' sp y { p with pagetable := pt, sz := sz } ∧
      LeavesBut vm vm' sp x y := by
  -- what holds at every exit, `goto bad` or not
  have hexit : ∀ {res₁ : Option Nat} {sz₁ : Nat} {vm₁ : Vm}, UserMem «end» k0 vm₁ sp x p →
      UserMem «end» k0 vm₁ sp y { p with pagetable := pt, sz := sz₁ } → LeavesBut vm vm₁ sp x y →
      (res₁, sz₁, vm₁) = (res, sz, vm') →
      UserMem «end» k0 vm' sp x p ∧ UserMem «end» k0 vm' sp y { p with pagetable := pt, sz := sz } ∧
        LeavesBut vm vm' sp x y := by
    intro res₁ sz₁ vm₁ hp₁ hq₁ hb₁ he
    cases he
    exact ⟨hp₁, hq₁, hb₁⟩
  rw [Xv6.kexecImage] at hrun
  -- the program headers
  have hd : Dense vm.mem pt (PGROUNDUP 0) := fun v _ hv =>
    absurd hv (by rw [show PGROUNDUP 0 = 0 by decide]; exact Nat.not_lt_zero v)
  obtain ⟨⟨ok, sz₁, vm₁⟩, hload, hrun⟩ := Loop.bind_eq_ok.mp hrun
  obtain ⟨hq₁, hout₁, hd₁⟩ :=
    UserMem.kexecLoad (q := { p with pagetable := pt, sz := 0 }) hend segs hq hd hload
  have hp₁ := hp.of_out hq₁.inv hout₁ hxy
  have hb₁ := hout₁.but_right x
  cases ok
  · exact hexit hp₁ hq₁ hb₁ (Except.ok.inj hrun)
  simp only [Bool.not_true, Bool.false_eq_true, if_false] at hrun
  -- the guard page and the stack, from the next page boundary
  have hq₂ : UserMem «end» k0 vm₁ sp y { p with pagetable := pt, sz := PGROUNDUP sz₁ } :=
    ⟨hq₁.inv, hq₁.root, PGROUNDUP_le_of_mod TRAPFRAME_mod hq₁.sz_le,
      by rw [PGROUNDUP_of_mod (PGROUNDUP_mod _)]; exact hq₁.below⟩
  have hd₂ : Dense vm₁.mem pt (PGROUNDUP (PGROUNDUP sz₁)) := by
    rw [PGROUNDUP_of_mod (PGROUNDUP_mod _)]
    exact hd₁ rfl
  obtain ⟨⟨sz₃, vm₂⟩, halloc, hrun⟩ := Loop.bind_eq_ok.mp hrun
  obtain ⟨sz₃', vm₂', halloc', hout₂, hcase⟩ := UserMem.uvmallocDense hend hq₂ hd₂
    (PGROUNDUP sz₁ + (USERSTACK + 1) * PGSIZE) PTE_W (by decide)
  obtain ⟨rfl, rfl⟩ : sz₃ = sz₃' ∧ vm₂ = vm₂' := by simpa using halloc.symm.trans halloc'
  have hb₂ := hb₁.trans (hout₂.but_right x)
  rcases hcase with ⟨rfl, hq₃⟩ | ⟨hz, hmax, hq₃, hd₃⟩
  · exact hexit (hp₁.of_out hq₃.inv hout₂ hxy) hq₃ hb₂ (Except.ok.inj hrun)
  rw [if_neg hz] at hrun
  dsimp only at hmax
  have hp₂ := hp₁.of_out hq₃.inv hout₂ hxy
  -- `uvmclear` of the guard page, the first page of the stack allocation
  have hguard : sz₃ - (USERSTACK + 1) * PGSIZE = PGROUNDUP sz₁ := by
    rw [hmax]
    omega
  have hsz₃ : sz₃ ≤ TRAPFRAME := hq₃.sz_le
  have hlt : PGROUNDUP sz₁ < sz₃ := by
    rw [hmax]
    unfold USERSTACK PGSIZE
    omega
  obtain ⟨vm₃, hclear, h₃, hout₃, -⟩ := hq₃.inv.uvmclear hq₃.root (PGROUNDUP_mod sz₁)
    (lt_of_lt_of_le hlt hsz₃)
    (hd₃ _ (PGROUNDUP_mod sz₁) (lt_of_lt_of_le hlt (le_PGROUNDUP sz₃)))
  rw [hguard, hclear, Loop.ok_bind] at hrun
  have hq₄ : UserMem «end» k0 vm₃ sp y { p with pagetable := pt, sz := sz₃ } :=
    ⟨h₃, hq₃.root, hsz₃, hq₃.below.of_out hout₃ hq₃.root le_rfl fun v _ hv =>
      ⟨by subst hv; exact lt_trans (lt_of_lt_of_le hlt hsz₃) (by decide),
        fun _ => .inr (.inr (by subst hv; exact lt_of_lt_of_le hlt (le_PGROUNDUP sz₃)))⟩⟩
  have hp₃ := hp₂.of_out h₃ hout₃ hxy
  have hb₃ := hb₂.trans (hout₃.but_right x)
  -- the argument strings, then `argv[]`: faults into the old table only
  obtain ⟨⟨r, vm₄⟩, hargs, hrun⟩ := Loop.bind_eq_ok.mp hrun
  obtain ⟨hp₄, hout₄⟩ := UserMem.kexecArgs hend argv hp₃ hargs
  have hq₅ := hq₄.of_out hp₄.inv hout₄ (Ne.symm hxy)
  have hb₄ := hb₃.trans (hout₄.but_left y)
  cases r with
  | none => exact hexit hp₄ hq₅ hb₄ (Except.ok.inj hrun)
  | some a =>
    simp only at hrun
    split_ifs at hrun with hbase
    · exact hexit hp₄ hq₅ hb₄ (Except.ok.inj hrun)
    obtain ⟨⟨r', vm₅⟩, hcopy, hrun⟩ := Loop.bind_eq_ok.mp hrun
    obtain ⟨hp₅, hout₅⟩ := UserMem.copyoutLoop_into hend _ hp₄ hcopy
    have hq₆ := hq₅.of_out hp₅.inv hout₅ (Ne.symm hxy)
    have hb₅ := hb₄.trans (hout₅.but_left y)
    split_ifs at hrun
    · exact hexit hp₅ hq₆ hb₅ (Except.ok.inj hrun)
    · exact hexit hp₅ hq₆ hb₅ (Except.ok.inj hrun)

/-- `kexec(path, argv)` by the process `p`, the holder `x`, whose memory keeps `UserMem`, with a
spare holder `y` that has nothing: when it returns, the process it leaves is `p` with another
page table and size, and keeps `UserMem` with the holders where `x` has its tree, `y` again has
nothing, and no leaf of another holder moved. -/
theorem UserMem.kexec (hxy : x ≠ y) (hp : UserMem «end» k0 vm sp x p) (hy : sp y = ⟨none, none⟩)
    {trampoline : Nat} {elfOk : Bool} {segs : List ElfSeg} {argv : List Nat} {r : Int} {q : Proc}
    (hrun : Xv6.kexec «end» trampoline p elfOk segs argv vm = .ok (r, q, vm')) :
    q = { p with pagetable := q.pagetable, sz := q.sz } ∧
      UserMem «end» k0 vm' (Space.setRoot sp x q.pagetable) x q ∧ LeavesBut vm vm' sp x y := by
  have hroot : (sp y).root = none := by rw [hy]
  have hset : Space.setRoot sp x p.pagetable = sp := Space.setRoot_self hp.root
  -- what holds when `p` keeps its image
  have hkeep : ∀ {vm₁ : Vm}, UserMem «end» k0 vm₁ sp x p → LeavesBut vm vm₁ sp x y →
      (-1, p, vm₁) = (r, q, vm') →
      q = { p with pagetable := q.pagetable, sz := q.sz } ∧
        UserMem «end» k0 vm' (Space.setRoot sp x q.pagetable) x q ∧ LeavesBut vm vm' sp x y := by
    intro vm₁ hp₁ hb₁ he
    cases he
    exact ⟨rfl, by rw [hset]; exact hp₁, hb₁⟩
  rw [Xv6.kexec] at hrun
  cases elfOk
  · exact hkeep hp (fun _ _ _ _ _ _ _ _ _ _ _ => rfl) (Except.ok.inj hrun)
  simp only [Bool.not_true, Bool.false_eq_true, if_false] at hrun
  -- the new table, of the spare holder `y`
  obtain ⟨pt, vm₁, hpp, hout₁, -, hcase⟩ := hp.inv.procPagetable hend hroot p.trapframe trampoline
  rw [hpp, Loop.ok_bind] at hrun
  rcases hcase with ⟨rfl, h₁, -, -, -⟩ | ⟨hpt, h₁, -, hb₁, -, -⟩
  · exact hkeep (hp.of_out h₁ hout₁ hxy) (hout₁.but_right x) (Except.ok.inj hrun)
  rw [if_neg hpt] at hrun
  have hother : ∀ z, z ≠ x → z ≠ y → (sp z).root = (Space.setRoot sp y pt z).root :=
    fun z _ hzy => (Space.setRoot_root_of_ne pt hzy).symm
  have hp₁ : UserMem «end» k0 vm₁ (Space.setRoot sp y pt) x p :=
    hp.of_leaves h₁ (Space.setRoot_root_of_ne pt hxy) fun i j k hi hj hk =>
      hout₁ x _ hp.root i j k hi hj hk fun e => absurd e hxy
  have hq₁ : UserMem «end» k0 vm₁ (Space.setRoot sp y pt) y { p with pagetable := pt, sz := 0 } :=
    ⟨h₁, by simp [Space.setRoot], Nat.zero_le _, by rw [show PGROUNDUP 0 = 0 by decide]; exact hb₁⟩
  obtain ⟨⟨res, sz, vm₂⟩, himg, hrun⟩ := Loop.bind_eq_ok.mp hrun
  obtain ⟨hp₂, hq₂, hb₂⟩ := UserMem.kexecImage hend hxy hp₁ hq₁ himg
  have hb₁₂ := (hout₁.but_right x).trans (hb₂.of_root hother)
  cases res with
  | none =>
    -- `goto bad`: the new table goes, with what was mapped in it
    obtain ⟨vm₃, hfree, h₃, -, -, -, -, hoth, -⟩ := hq₂.inv.procFreepagetable hq₂.root sz
      (PGROUNDUP_le_of_mod TRAPFRAME_mod hq₂.sz_le) hq₂.below
    dsimp only at hrun
    rw [hfree, Loop.ok_bind] at hrun
    rw [Space.dropRoot_setRoot hroot] at h₃
    exact hkeep (hp₂.of_leaves h₃ (Space.setRoot_root_of_ne pt hxy).symm
        (hoth x p.pagetable hxy hp₂.root))
      (hb₁₂.trans fun z r' _ hzy hz => hoth z r' hzy (by rw [← hother z ‹_› hzy]; exact hz))
      (Except.ok.inj hrun)
  | some argc =>
    -- the image is committed: the old table goes, and the new tree becomes that of `x`
    obtain ⟨vm₃, hfree, h₃, -, -, -, -, hoth, -⟩ := hp₂.inv.procFreepagetable hp₂.root p.sz
      (PGROUNDUP_le_of_mod TRAPFRAME_mod hp₂.sz_le) hp₂.below
    dsimp only at hrun
    rw [hfree, Loop.ok_bind] at hrun
    cases Except.ok.inj hrun
    have hy₃ : (Space.dropRoot (Space.setRoot sp y pt) x y).root = some pt := by
      simp [Space.dropRoot, Space.setRoot, Ne.symm hxy]
    have h₄ := h₃.moveRoot hxy (by simp [Space.dropRoot]) hy₃
    have hsp : Space.setRoot (Space.dropRoot (Space.dropRoot (Space.setRoot sp y pt) x) y) x pt =
        Space.setRoot sp x pt := by
      funext z
      by_cases hzx : z = x
      · subst hzx
        simp [Space.setRoot, Space.dropRoot, hxy]
      by_cases hzy : z = y
      · subst hzy
        simp [Space.setRoot, Space.dropRoot, hzx, hy]
      · simp [Space.setRoot, Space.dropRoot, hzx, hzy]
    rw [hsp] at h₄
    refine ⟨rfl, ⟨h₄, by simp [Space.setRoot], hq₂.sz_le, fun i j k hi hj hk hs => ?_⟩,
      hb₁₂.trans fun z r' hzx _ hz => hoth z r' hzx (by rw [← hother z hzx ‹_›]; exact hz)⟩
    rw [hoth y pt (Ne.symm hxy) hq₂.root i j k hi hj hk] at hs
    exact hq₂.below i j k hi hj hk hs

end Image

end Xv6
