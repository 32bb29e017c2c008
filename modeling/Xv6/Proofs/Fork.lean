import Xv6.Proofs.Sbrk
import Xv6.Proofs.PageMap

/-!
# `uvmcopy` and a `kfork` that gives up

`uvmcopy(old, new, sz)` walks the pages below `sz` of the parent's tree and gives the child, at
each page the parent maps, a fresh page with the same contents and the same flags. It is run on
the trees of two holders `x` (the parent) and `y` (the child) under the ownership invariant.
When `kalloc` or the `walk` of `mappages` runs out of memory it unmaps and frees what it mapped.

What a call that builds the holder `y` has out of the allocator is its pool (`Pool`): the free
pages, the pages of `y` and the pages the call holds. Each step of `uvmcopy`, `proc_pagetable`,
`allocproc` and `freeproc` keeps the pool: a page moves from the free list to the call, from the
call to `y`, or back to the free list. A `kfork` that gives up starts and ends with a `y` that
has nothing and a call that holds nothing, so the free pages are the ones it started with.
-/

namespace Xv6

section Pool

variable {ι : Type} {vm vm' : Vm} {sp sp' : ι → Space} {y : ι}

/-- The pages of the holder `y`: its trapframe and the pages of its tree. -/
def OfHolder (mem : Nat → Nat → Nat) (sp : ι → Space) (y : ι) (b : Nat) : Prop :=
  pageAt mem sp (.tf y) = some b ∨ ∃ n, pageAt mem sp (.tbl y n) = some b

/-- What a call that builds the holder `y` has out of the allocator: the free pages, the pages of
`y` and the pages `H` the call holds. -/
def Pool (vm : Vm) (sp : ι → Space) (y : ι) (H : Nat → Prop) (b : Nat) : Prop :=
  b ∈ vm.kmem.freelist ∨ OfHolder vm.mem sp y b ∨ H b

/-- With nothing held and nothing of `y`, the pool is the free list. -/
theorem pool_empty (hy : sp y = ⟨none, none⟩) (b : Nat) :
    Pool vm sp y (fun _ => False) b ↔ b ∈ vm.kmem.freelist := by
  simp [Pool, OfHolder, pageAt, hy]

/-- `kalloc` moves the page it returns from the free list to the call. -/
theorem Pool.kalloc {H : Nat → Prop} (hz : vm.kalloc.2 ≠ 0) :
    Pool vm sp y H = Pool vm.kalloc.1 sp y fun b => H b ∨ b = vm.kalloc.2 := by
  funext b
  have hfl := Vm.kalloc_freelist hz
  simp only [Pool, Vm.kalloc_mem, hfl, List.mem_cons, eq_iff_iff]
  tauto

/-- Memory and the free list as they were, as far as `y` and the allocator see. -/
theorem Pool.congr {H : Nat → Prop} (hfl : ∀ b, b ∈ vm'.kmem.freelist ↔ b ∈ vm.kmem.freelist)
    (hpage : pageAt vm'.mem sp = pageAt vm.mem sp) : Pool vm sp y H = Pool vm' sp y H := by
  funext b
  simp only [Pool, OfHolder, hpage, hfl]

/-- A growth of the trees that takes pages off the free list for `y` and gives `y` pages that
were free or held. -/
theorem Pool.of_grew {S : TPos → Prop} {H H' : Nat → Prop} (hg : Grew vm vm' sp y S)
    (hdrawn : ∀ b, OfHolder vm'.mem sp y b → OfHolder vm.mem sp y b ∨ b ∈ vm.kmem.freelist ∨ H b)
    (hH : ∀ b, H b → H' b ∨ OfHolder vm'.mem sp y b) (hH' : ∀ b, H' b → H b) :
    Pool vm sp y H = Pool vm' sp y H' := by
  funext b
  apply propext
  constructor
  · rintro (hb | ⟨hb | ⟨n, hb⟩⟩ | hb)
    · rcases hg.taken b hb with hb' | ⟨n, -, hpos⟩
      · exact .inl hb'
      · exact .inr (.inl (.inr ⟨n, hpos⟩))
    · exact .inr (.inl (.inl (hg.keep _ b hb)))
    · exact .inr (.inl (.inr ⟨n, hg.keep _ b hb⟩))
    · exact (hH b hb).elim (fun h => .inr (.inr h)) fun h => .inr (.inl h)
  · rintro (hb | hb | hb)
    · exact .inl (hg.sub b hb)
    · rcases hdrawn b hb with hb' | hb' | hb'
      · exact .inr (.inl hb')
      · exact .inl hb'
      · exact .inr (.inr hb')
    · exact .inr (.inr (hH' b hb))

/-- `kfree` of a page the call held puts it on the free list. -/
theorem Pool.kfree {H H' : Nat → Prop} {a : Nat} (hmem : vm'.mem = vm.mem)
    (hfl : vm'.kmem.freelist = a :: vm.kmem.freelist) (hH : ∀ b, H b ↔ H' b ∨ b = a) :
    Pool vm sp y H = Pool vm' sp y H' := by
  funext b
  simp only [Pool, hmem, hfl, List.mem_cons, hH, eq_iff_iff]
  tauto

/-- The tree of `y` let go of pages, each of which went on the free list, and the free list gained
only pages of the tree. -/
theorem Pool.of_shed {H : Nat → Prop} (hrel : Released vm vm' sp y) (hshed : Shed vm vm' sp y) :
    Pool vm sp y H = Pool vm' sp y H := by
  funext b
  apply propext
  constructor
  · rintro (hb | ⟨hb | ⟨n, hb⟩⟩ | hb)
    · exact .inl (hrel.2 b hb)
    · exact .inr (.inl (.inl hb))
    · exact (hrel.1 n b hb).elim (fun h => .inr (.inl (.inr ⟨n, h⟩))) .inl
    · exact .inr (.inr hb)
  · rintro (hb | ⟨hb | ⟨n, hb⟩⟩ | hb)
    · exact (hshed.only b hb).elim .inl fun ⟨n, h⟩ => .inr (.inl (.inr ⟨n, h⟩))
    · exact .inr (.inl (.inl hb))
    · exact .inr (.inl (.inr ⟨n, hshed.shrink n b hb⟩))
    · exact .inr (.inr hb)

end Pool

/-! ## One fresh page with given contents -/

section Fill

variable {ι : Type} [DecidableEq ι] {«end» : Nat} {k0 : Kmem} {vm : Vm} {sp : ι → Space} {y : ι}
  {r : Nat}

omit [DecidableEq ι] in
/-- A held page filled with `c`: no tree sees it, and what was held is still held. -/
theorem VmInv.fill_held (h : VmInv «end» k0 vm sp) {a : Nat} (ha : HeldPage «end» vm sp a)
    {vm' : Vm} {c : Nat → Nat} (hmem : vm'.mem = Function.update vm.mem a c)
    (hk : vm'.kmem = vm.kmem) (hc : vm'.calls = vm.calls) :
    VmInv «end» k0 vm' sp ∧ LeavesKept vm vm' sp ∧ HeldKept «end» vm vm' sp ∧
      pageAt vm'.mem sp = pageAt vm.mem sp := by
  -- no page-table page of any tree is the held page
  have hF : ∀ x r, (sp x).root = some r → ∀ n p, n.isNode = true →
      tablePage vm.mem r n = some p → vm'.mem p = vm.mem p := by
    intro x r hx n p _ hp
    have hpa : p ≠ a := fun e => ha.held.not_owned (.tbl x n) (by simp [pageAt, hx, hp, e])
    rw [hmem, Function.update_of_ne hpa]
  have hpage : pageAt vm'.mem sp = pageAt vm.mem sp :=
    pageAt_congr fun x r hx => tablePage_congr (hF x r hx)
  obtain ⟨hinv, hkeep⟩ := h.of_pageAt hpage hk hc fun x r hx => (h.interior x r hx).congr (hF x r hx)
  exact ⟨hinv, fun x r hx i j k hi hj => leafPte_congr_nodes (hF x r hx) hi hj, hkeep, hpage⟩

omit [DecidableEq ι] in
/-- A tree of the invariant is well formed. -/
theorem VmInv.wfTree (h : VmInv «end» k0 vm sp) (hy : (sp y).root = some r) : WfTree vm r :=
  ⟨h.nodesInj hy, h.interior y r hy, fun n p _ hp hfree =>
    h.excl.not_free (.tbl y n) p (by simp [pageAt, hy, hp]) hfree⟩

variable (hend : KERNBASE ≤ «end»)
include hend

omit [DecidableEq ι] in
/-- The pages `y` has after `mappages` of one page in its tree: those it had, pages that were
free, and the page mapped when the leaf is a user leaf. -/
theorem VmInv.mappages_ofHolder (h : VmInv «end» k0 vm sp) (hy : (sp y).root = some r)
    {va pa perm : Nat} {res : Int} {vm' : Vm} (hmax : va < MAXVA)
    (hmap : Xv6.mappages r va PGSIZE pa perm vm = .ok (res, vm')) (b : Nat)
    (hb : OfHolder vm'.mem sp y b) :
    OfHolder vm.mem sp y b ∨ b ∈ vm.kmem.freelist ∨
      UserLeaf (PX 2 va) (PX 1 va) (PX 0 va) ∧ b = PTE2PA (PA2PTE pa ||| perm ||| PTE_V) := by
  rcases hb with hb | ⟨n, hb⟩
  · exact .inl (.inl hb)
  · simp only [pageAt, hy, Option.bind_some] at hb
    rcases (h.wfTree hy).mappages_drawn hend h.kmem hmax hmap hb with hb' | hb' | hb'
    · exact .inl (.inr ⟨n, by simp [pageAt, hy, hb']⟩)
    · exact .inr (.inl hb')
    · exact .inr (.inr hb')

/-- One fresh page at an aligned `a` below `TRAPFRAME` where nothing is mapped: `kalloc()` gave
the page `mem`, which is filled with `c` and mapped with `perm`; when `mappages` fails,
`kfree(mem)` gives it back. Either the leaf of `a` now maps the page, which was free and holds
`c`; or no leaf moved and every page taken is back but page-table pages. The pool of `y` is
kept either way. -/
theorem VmInv.mapFilled (h : VmInv «end» k0 vm sp) (hy : (sp y).root = some r) {a perm : Nat}
    (ha : a % PGSIZE = 0) (hatf : a < TRAPFRAME) (hperm : perm < 1024)
    (hnone : leafAt vm.mem r a = none) (hz : vm.kalloc.2 ≠ 0) {c : Nat → Nat} {vm1 : Vm}
    (hmem1 : vm1.mem = Function.update vm.mem vm.kalloc.2 c) (hk1 : vm1.kmem = vm.kalloc.1.kmem)
    (hc1 : vm1.calls = vm.kalloc.1.calls) :
    vm.kalloc.2 ∈ vm.kmem.freelist ∧
    ∃ res vm2, Xv6.mappages r a PGSIZE vm.kalloc.2 perm vm1 = .ok (res, vm2) ∧
      ((res = 0 ∧ VmInv «end» k0 vm2 sp ∧ HeldKept «end» vm vm2 sp ∧
          leafAt vm2.mem r a = some (PA2PTE vm.kalloc.2 ||| perm ||| PTE_V) ∧
          pageAt vm2.mem sp (.tbl y (.leaf (PX 2 a) (PX 1 a) (PX 0 a))) = some vm.kalloc.2 ∧
          vm2.mem vm.kalloc.2 = c ∧ LeavesOut vm vm2 sp y (· = a) ∧
          Grew vm vm2 sp y (· = .leaf (PX 2 a) (PX 1 a) (PX 0 a)) ∧
          (∃ evs, vm2.calls = vm.calls ++ evs) ∧ ∀ H, Pool vm sp y H = Pool vm2 sp y H) ∨
        (res = -1 ∧ ∃ vm3, vm2.kfree «end» vm.kalloc.2 = .ok vm3 ∧ VmInv «end» k0 vm3 sp ∧
          HeldKept «end» vm vm3 sp ∧ LeavesOut vm vm3 sp y (fun _ => False) ∧
          Grew vm vm3 sp y (fun _ => False) ∧ RanOut vm vm3 ∧
          ∀ H, Pool vm sp y H = Pool vm3 sp y H)) := by
  have hT : TRAPFRAME < MAXVA := by decide
  obtain ⟨h0, hk0, hpg⟩ := h.kalloc hend
  obtain ⟨hheld, hfree⟩ := hpg hz
  -- the page is filled while the call holds it
  obtain ⟨h1, hl1, hkz, hp1⟩ := h0.fill_held hheld
    (show vm1.mem = Function.update vm.kalloc.1.mem vm.kalloc.2 c from hmem1) hk1 hc1
  have hw1 : ∀ p, vm1.mem p ≠ vm.mem p → p = vm.kalloc.2 := by
    intro p hp
    by_contra hne
    exact hp (by rw [hmem1, Function.update_of_ne hne])
  have hnone1 : leafAt vm1.mem r a = none := by
    rw [leafAt, hl1 y r hy _ _ _ (PX_lt 2 a) (PX_lt 1 a)]
    exact hnone
  obtain ⟨res, vm2, hmap, h2, hout2, hg2, ⟨evs, hcalls, hncalls⟩, hcase⟩ :=
    h1.mappages hend hy vm.kalloc.2 ha (lt_trans hatf hT) hperm hnone1 fun _ => hkz _ hheld
  -- what the call held before `kalloc` is not the new page
  have hne : ∀ b, HeldPage «end» vm sp b → b ≠ vm.kalloc.2 := fun b hb e =>
    hb.held.not_free (e ▸ hfree)
  have hout : LeavesOut vm vm2 sp y (· = a) := fun x' r' hx' i j k hi hj hk hS => by
    rw [hout2 x' r' hx' i j k hi hj hk hS, hl1 x' r' hx' i j k hi hj, Vm.kalloc_mem]
  have hc2 : vm2.calls = vm.calls ++ (.kalloc vm.kalloc.2 :: evs) := by
    rw [hcalls, hc1]
    simp [Vm.kalloc]
  -- the page came off the free list to the call, and `mappages` gave `y` only pages that were
  -- free and the page
  have hpool1 : ∀ H, Pool vm sp y H = Pool vm1 sp y fun b => H b ∨ b = vm.kalloc.2 := fun H =>
    (Pool.kalloc hz).trans (Pool.congr (fun b => by rw [hk1]) hp1)
  have hdrawn : ∀ (H : Nat → Prop) b, OfHolder vm2.mem sp y b → OfHolder vm1.mem sp y b ∨
      b ∈ vm1.kmem.freelist ∨ (H b ∨ b = vm.kalloc.2) := by
    intro H b hb
    rcases h1.mappages_ofHolder hend hy (lt_trans hatf hT) hmap b hb with hb' | hb' | ⟨-, rfl⟩
    · exact .inl hb'
    · exact .inr (.inl hb')
    · exact .inr (.inr (.inr (leaf_pte hheld.managed.1 hperm).2))
  refine ⟨hfree, res, vm2, hmap, ?_⟩
  rcases hcase with ⟨rfl, hleaf2, hk2⟩ | ⟨rfl, hleaf2, hk2⟩
  · have hat2 : pageAt vm2.mem sp (.tbl y (.leaf (PX 2 a) (PX 1 a) (PX 0 a))) =
        some vm.kalloc.2 := by
      rw [pageAt_leafAt hy ha hatf hleaf2, (leaf_pte hheld.managed.1 hperm).2]
    have hgrew1 : Grew vm vm2 sp y (· = .leaf (PX 2 a) (PX 1 a) (PX 0 a)) :=
      Grew.kalloc hz hk1 hp1 hw1 (hg2.mono fun _ h => h.elim) ⟨_, .inr rfl, hat2⟩
    -- the page keeps what it was filled with: `mappages` wrote only page-table pages
    have hfill2 : vm2.mem vm.kalloc.2 = c := by
      rw [hg2.mem_eq (hkz _ hheld).held.not_free fun n hn hpos => by
        cases h2.excl.inj _ _ _ hpos hat2
        simp [TPos.isNode] at hn, hmem1, Function.update_self]
    exact .inl ⟨rfl, h2, fun b hb => hk2 b (fun _ => hne b hb) (hkz b (hk0 b hb)), hleaf2, hat2,
      hfill2, hout, hgrew1, ⟨_, hc2⟩, fun H => (hpool1 H).trans (Pool.of_grew hg2 (hdrawn H)
        (fun b hb => hb.imp_right fun e => .inr ⟨_, e ▸ hat2⟩) fun b hb => .inl hb)⟩
  · -- `walk` ran out of memory: the page goes back
    have hheld2 : HeldPage «end» vm2 sp vm.kalloc.2 := hk2 _ (hkz _ hheld)
    obtain ⟨vm3, hfree3, h3, hmem3, hfl3, hk3⟩ := h2.kfree_held hheld2
    have hgrew3 : Grew vm vm3 sp y (fun _ => False) :=
      Grew.kalloc_kfree hz hk1 hp1 hw1 hg2 hmem3 hfl3
    obtain ⟨_, hc3⟩ := Vm.kfree_eq_ok hfree3
    have hran3 : RanOut vm vm3 := by
      refine ⟨.kalloc vm.kalloc.2 :: evs ++ [.kfree vm.kalloc.2], ?_, ?_⟩
      · rw [hc3.2, hc2, List.append_assoc]
      · exact List.mem_append_left _ (List.mem_cons_of_mem _ (hncalls (by decide)))
    -- the leaf of `a` is missing before and after
    have hout3 : LeavesOut vm vm3 sp y (fun _ => False) := fun x' r' hx' i j k hi hj hk _ => by
      rw [hmem3]
      by_cases hS : x' = y ∧ vaOf i j k = a
      · obtain ⟨rfl, hv⟩ := hS
        rw [hy, Option.some.injEq] at hx'
        subst hx'
        rw [← leafAt_vaOf _ _ hi hj hk, ← leafAt_vaOf _ _ hi hj hk, hv, hleaf2, hnone]
      · exact hout x' r' hx' i j k hi hj hk fun e hv => hS ⟨e, hv⟩
    exact .inr ⟨rfl, vm3, hfree3, h3, fun b hb => hk3 b (hne b hb) (hk2 b (hkz b (hk0 b hb))),
      hout3, hgrew3, hran3, fun H => (hpool1 H).trans ((Pool.of_grew hg2 (hdrawn H)
        (fun b hb => .inl hb) fun b hb => hb).trans (Pool.kfree hmem3 hfl3 fun b => Iff.rfl))⟩

end Fill

/-! ## `uvmcopy` -/

section Copy

/-- The pages `[a, b)` of the tree below `new` copy those of the tree below `old`: where `old`
maps a page, `new` maps a page that was free and now holds what that page held, with the same
flags; where `old` maps nothing, so does `new`. -/
def Copies (vm vm' : Vm) (old new a b : Nat) : Prop :=
  ∀ v, v % PGSIZE = 0 → a ≤ v → v < b →
    (leafAt vm.mem old v = none → leafAt vm'.mem new v = none) ∧
    ∀ w, leafAt vm.mem old v = some w → ∃ pa, pa ∈ vm.kmem.freelist ∧
      vm'.mem pa = vm.mem (PTE2PA w) ∧
      leafAt vm'.mem new v = some (PA2PTE pa ||| PTE_FLAGS w ||| PTE_V)

theorem leafAt_valid {mem : Nat → Nat → Nat} {r va w : Nat} (hw : leafAt mem r va = some w) :
    Valid w := by
  obtain ⟨l, -, hl⟩ := Option.bind_eq_some_iff.mp hw
  split_ifs at hl with hv
  cases hl
  exact hv

theorem or_PTE_V_of_valid {f : Nat} (hf : Valid f) : f ||| PTE_V = f := by
  rw [valid_iff] at hf
  apply Nat.eq_of_testBit_eq
  intro i
  rw [Nat.testBit_or]
  cases i with
  | zero => simp [PTE_V, Nat.testBit_zero, hf]
  | succ i => simp [PTE_V, Nat.testBit_succ]

/-- The PTE `uvmcopy` builds for a copy has the flags of the valid PTE it copies. -/
theorem PTE_FLAGS_copy {w : Nat} (pa : Nat) (hw : Valid w) :
    PTE_FLAGS (PA2PTE pa ||| PTE_FLAGS w ||| PTE_V) = PTE_FLAGS w := by
  have hv : Valid (PTE_FLAGS w) := by
    rw [valid_iff, PTE_FLAGS_eq]
    rw [valid_iff] at hw
    omega
  rw [Nat.or_assoc, or_PTE_V_of_valid hv, PTE_FLAGS_eq, PA2PTE_or_mod pa (PTE_FLAGS_lt w)]

variable {ι : Type} [DecidableEq ι] {«end» : Nat} {k0 : Kmem} {vm : Vm} {sp : ι → Space}
  {x y : ι} {old new : Nat}

/-- `Copies` at one address, read through the PTEs: the child maps it exactly when the parent
does, with the parent's flags, to a page that was free and holds what the parent's page held. -/
theorem Copies.leaf {vm' : Vm} {a b : Nat} (hc : Copies vm vm' old new a b)
    (hk : KmemInv «end» vm.kmem) {v : Nat} (hv : v % PGSIZE = 0) (h1 : a ≤ v) (h2 : v < b) :
    (leafAt vm'.mem new v).isSome = (leafAt vm.mem old v).isSome ∧
      ∀ w w', leafAt vm.mem old v = some w → leafAt vm'.mem new v = some w' →
        PTE_FLAGS w' = PTE_FLAGS w ∧ PTE2PA w' ∈ vm.kmem.freelist ∧
          vm'.mem (PTE2PA w') = vm.mem (PTE2PA w) := by
  obtain ⟨hnone, hsome⟩ := hc v hv h1 h2
  cases hw : leafAt vm.mem old v with
  | none => simp [hnone hw]
  | some w =>
    obtain ⟨pa, hpa, hmem, hleaf⟩ := hsome w hw
    have hal : pa % PGSIZE = 0 := (hk.free_managed pa hpa).1
    refine ⟨by simp [hleaf], fun w₁ w' h₁ h' => ?_⟩
    cases h₁
    rw [hleaf] at h'
    cases h'
    rw [PTE_FLAGS_copy pa (leafAt_valid hw), Nat.or_assoc,
      PTE2PA_PA2PTE_or hal (or_PTE_V_lt (PTE_FLAGS_lt w))]
    exact ⟨rfl, hpa, hmem⟩

omit [DecidableEq ι] in
/-- A process keeps `UserMem`, also under other holders, while its tree and its leaves stay. -/
theorem UserMem.of_leaves {vm' : Vm} {sp' : ι → Space} {p : Proc}
    (hp : UserMem «end» k0 vm sp x p) (h' : VmInv «end» k0 vm' sp')
    (hroot : (sp' x).root = (sp x).root)
    (hleaf : ∀ i j k, i < 512 → j < 512 → k < 512 →
      leafPte vm'.mem p.pagetable i j k = leafPte vm.mem p.pagetable i j k) :
    UserMem «end» k0 vm' sp' x p := by
  refine ⟨h', hroot.trans hp.root, hp.sz_le, fun i j k hi hj hk hs => ?_⟩
  rw [hleaf i j k hi hj hk] at hs
  exact hp.below i j k hi hj hk hs

omit [DecidableEq ι] in
/-- A process keeps `UserMem` over a call that moved leaves of another holder only. -/
theorem UserMem.of_out {vm' : Vm} {p : Proc} {S : Nat → Prop} (hp : UserMem «end» k0 vm sp x p)
    (h' : VmInv «end» k0 vm' sp) (hout : LeavesOut vm vm' sp y S) (hxy : x ≠ y) :
    UserMem «end» k0 vm' sp x p :=
  hp.of_leaves h' rfl fun i j k hi hj hk =>
    hout x p.pagetable hp.root i j k hi hj hk fun e => absurd e hxy

omit [DecidableEq ι] in
/-- While the tree of `y` only grew, the pages another holder's tree maps kept their contents. -/
theorem Grew.mem_of_leaf {vm' : Vm} {S : TPos → Prop} (hg : Grew vm vm' sp y S)
    (h : VmInv «end» k0 vm sp) (h' : VmInv «end» k0 vm' sp) (hx : (sp x).root = some old)
    (hxy : x ≠ y) {v w : Nat} (hv : v % PGSIZE = 0) (hvt : v < TRAPFRAME)
    (hw : leafAt vm.mem old v = some w) : vm'.mem (PTE2PA w) = vm.mem (PTE2PA w) := by
  have hown := pageAt_leafAt hx hv hvt hw
  refine hg.mem_eq (h.excl.not_free _ _ hown) fun n _ hpos => ?_
  cases h'.excl.inj _ _ _ hpos (hg.keep _ _ hown)
  exact hxy rfl

/-- The `err:` path of `uvmcopy` at `i`: `uvmunmap(new, 0, i / PGSIZE, 1)` takes away the user
leaves of the child's tree, all of them below `i`, with their pages. -/
theorem VmInv.copyUndo (h : VmInv «end» k0 vm sp) (hy : (sp y).root = some new) {i : Nat}
    (hi : i % PGSIZE = 0) (hitf : i ≤ TRAPFRAME) (hb : LeavesBelow vm.mem new i) :
    ∃ vm', Xv6.uvmunmap «end» new 0 (i / PGSIZE) true vm = .ok vm' ∧ VmInv «end» k0 vm' sp ∧
      HeldKept «end» vm vm' sp ∧ LeavesBelow vm'.mem new 0 ∧ LeavesOut vm vm' sp y (· < i) ∧
      Released vm vm' sp y ∧ (∀ H, Pool vm sp y H = Pool vm' sp y H) ∧
      ∃ evs, vm'.calls = vm.calls ++ evs := by
  have hT : TRAPFRAME < MAXVA := by decide
  have hn : 0 + i / PGSIZE * PGSIZE = i := by
    rw [Nat.zero_add, Nat.div_mul_cancel (Nat.dvd_of_mod_eq_zero hi)]
  obtain ⟨vm', hun, h', hnone, hout, hk, hrel, hshed, -⟩ := h.uvmunmap hy (n := i / PGSIZE) true
    (Nat.zero_mod PGSIZE) (by omega) fun _ v _ _ hv _ => by omega
  rw [hn] at hnone hout
  -- the leaves of `[0, i)` are gone, and there were none from `i` on
  have hb' : LeavesBelow vm'.mem new i := hb.of_out hout hy le_rfl fun v hv hS =>
    ⟨by omega, fun hs => by simp [hnone v hv hS.1 hS.2] at hs⟩
  have hloop := hun
  rw [Xv6.uvmunmap, if_neg (by simp)] at hloop
  exact ⟨vm', hun, h', hk, hb'.lower fun v hv h1 h2 => hnone v hv h1 h2,
    hout.mono fun v hv => hv.2, hrel (.inl rfl), fun H => Pool.of_shed (hrel (.inl rfl)) hshed,
    uvmunmapLoop_calls new true _ 0 vm vm' hloop⟩

omit [DecidableEq ι] in
/-- A page the parent does not map is skipped. -/
theorem uvmcopyLoop_skip {i : Nat} (hmax : i < MAXVA) (hw : leafAt vm.mem old i = none)
    (n : Nat) : uvmcopyLoop «end» old new (n + 1) i vm = uvmcopyLoop «end» old new n (i + PGSIZE) vm := by
  simp only [Xv6.uvmcopyLoop, walk_false _ hmax, Loop.ok_bind]
  cases hlow : lowPage vm.mem old (PX 2 i) (PX 1 i) with
  | none => rfl
  | some l =>
    have hv : vm.mem l (PX 0 i) &&& PTE_V = 0 := by
      by_contra hv
      simp [leafAt, leafPte, hlow, Valid, hv] at hw
    simp only [Option.map_some, if_pos hv]

variable (hend : KERNBASE ≤ «end»)
include hend

/-- One round of `uvmcopy`'s loop at an aligned `i` below `TRAPFRAME` where the parent maps the
valid leaf `w` and the child maps nothing from `i` on: the page of `w` is copied into a fresh
page that the child maps at `i` with the flags of `w`, and the loop goes on; or memory runs out,
and the `err:` path takes away every user leaf of the child with its page. -/
theorem VmInv.copyOne (h : VmInv «end» k0 vm sp) (hy : (sp y).root = some new) {i w : Nat}
    (hi : i % PGSIZE = 0) (hitf : i < TRAPFRAME) (hb : LeavesBelow vm.mem new i)
    (hw : leafAt vm.mem old i = some w) :
    ∃ vm2, ((∀ n, uvmcopyLoop «end» old new (n + 1) i vm =
          uvmcopyLoop «end» old new n (i + PGSIZE) vm2) ∧
        VmInv «end» k0 vm2 sp ∧ HeldKept «end» vm vm2 sp ∧
        (∃ pa, pa ∈ vm.kmem.freelist ∧ vm2.mem pa = vm.mem (PTE2PA w) ∧
          leafAt vm2.mem new i = some (PA2PTE pa ||| PTE_FLAGS w ||| PTE_V) ∧
          pageAt vm2.mem sp (.tbl y (.leaf (PX 2 i) (PX 1 i) (PX 0 i))) = some pa) ∧
        LeavesOut vm vm2 sp y (· = i) ∧ Grew vm vm2 sp y (· = .leaf (PX 2 i) (PX 1 i) (PX 0 i)) ∧
        (∃ evs, vm2.calls = vm.calls ++ evs) ∧ ∀ H, Pool vm sp y H = Pool vm2 sp y H) ∨
      ((∀ n, uvmcopyLoop «end» old new (n + 1) i vm = .ok (-1, vm2)) ∧
        VmInv «end» k0 vm2 sp ∧ HeldKept «end» vm vm2 sp ∧ LeavesBelow vm2.mem new 0 ∧
        LeavesOut vm vm2 sp y (· < i + PGSIZE) ∧ GaveBack vm vm2 sp y ∧ RanOut vm vm2 ∧
        ∀ H, Pool vm sp y H = Pool vm2 sp y H) := by
  have hT : TRAPFRAME < MAXVA := by decide
  have hmax : i < MAXVA := lt_trans hitf hT
  -- the round reads the parent's leaf, then calls `kalloc`
  obtain ⟨l, hlow, hv, rfl⟩ : ∃ l, lowPage vm.mem old (PX 2 i) (PX 1 i) = some l ∧
      Valid (vm.mem l (PX 0 i)) ∧ vm.mem l (PX 0 i) = w := by
    cases hlow : lowPage vm.mem old (PX 2 i) (PX 1 i) with
    | none => simp [leafAt, leafPte, hlow] at hw
    | some l =>
      simp only [leafAt, leafPte, hlow, Option.bind_some] at hw
      split_ifs at hw with hv
      exact ⟨l, rfl, hv, Option.some.inj hw⟩
  have hround : ∀ n, uvmcopyLoop «end» old new (n + 1) i vm =
      if vm.kalloc.2 = 0 then
        Xv6.uvmunmap «end» new 0 (i / PGSIZE) true vm.kalloc.1 >>= fun vm => pure (-1, vm)
      else Xv6.mappages new i PGSIZE vm.kalloc.2 (PTE_FLAGS (vm.mem l (PX 0 i)))
          (vm.kalloc.1.copy vm.kalloc.2 (PTE2PA (vm.mem l (PX 0 i)))) >>= fun x =>
        if x.1 ≠ 0 then
          Vm.kfree «end» x.2 vm.kalloc.2 >>= fun vm =>
            Xv6.uvmunmap «end» new 0 (i / PGSIZE) true vm >>= fun vm => pure (-1, vm)
        else uvmcopyLoop «end» old new n (i + PGSIZE) x.2 := by
    intro n
    simp only [Xv6.uvmcopyLoop, walk_false _ hmax, Loop.ok_bind, hlow, Option.map_some]
    rw [if_neg hv]
  by_cases hz : vm.kalloc.2 = 0
  · -- out of memory at once: undo
    obtain ⟨h1, hk1, -⟩ := h.kalloc hend
    have hg1 : Grew vm vm.kalloc.1 sp y (fun _ => False) := h.grew_kalloc_zero hend hz
    obtain ⟨vm2, hun, h2, hk2, hb2, hout2, hrel2, hpool2, evs, hc2⟩ :=
      h1.copyUndo hy hi hitf.le hb
    refine ⟨vm2, .inr ⟨fun n => by rw [hround, if_pos hz, hun, Loop.ok_bind]; rfl, h2,
      hk1.trans hk2, hb2, fun y' r' hy' i' j k hi' hj hk hS => ?_,
      hg1.gaveBack hrel2.gaveBack fun _ h => h.elim, ?_, fun H => ?_⟩⟩
    · rw [hout2 y' r' hy' i' j k hi' hj hk fun e hv => hS e (by omega), Vm.kalloc_mem]
    · refine ⟨.kalloc vm.kalloc.2 :: evs, by rw [hc2]; simp [Vm.kalloc], ?_⟩
      rw [hz]
      exact List.mem_cons_self
    · refine (Pool.of_grew hg1 (fun b hb => .inl hb) (fun b hb => .inl hb) fun b hb => hb).trans
        (hpool2 H)
  · obtain ⟨hfree, res, vm2, hmap, hcase⟩ := h.mapFilled hend hy hi hitf (PTE_FLAGS_lt _)
      (hb.leafAt_eq_none hi le_rfl hitf) hz
      (show (vm.kalloc.1.copy vm.kalloc.2 (PTE2PA (vm.mem l (PX 0 i)))).mem =
        Function.update vm.mem vm.kalloc.2 (vm.mem (PTE2PA (vm.mem l (PX 0 i)))) from rfl) rfl rfl
    rcases hcase with ⟨rfl, h2, hk2, hleaf2, hat2, hcopy2, hout2, hgrew2, hc2, hpool2⟩ |
      ⟨rfl, vm3, hfree3, h3, hk3, hout3, hgrew3, hran3, hpool3⟩
    · -- copied and mapped: on to the next page
      refine ⟨vm2, .inl ⟨fun n => ?_, h2, hk2, ⟨_, hfree, hcopy2, hleaf2, hat2⟩, hout2, hgrew2,
        hc2, hpool2⟩⟩
      rw [hround, if_neg hz, hmap, Loop.ok_bind]
      rfl
    · -- `walk` ran out of memory and the page went back: undo
      have hb3 : LeavesBelow vm3.mem new i := hb.of_out hout3 hy le_rfl fun _ _ hv => hv.elim
      obtain ⟨vm4, hun, h4, hk4, hb4, hout4, hrel4, hpool4, evs, hc4⟩ :=
        h3.copyUndo hy hi hitf.le hb3
      obtain ⟨evs3, hc3, hin3⟩ := hran3
      refine ⟨vm4, .inr ⟨fun n => ?_, h4, hk3.trans hk4, hb4, (hout3.trans hout4).mono
        fun v hv => ?_, hgrew3.gaveBack hrel4.gaveBack fun _ h => h.elim,
        ⟨evs3 ++ evs, by rw [hc4, hc3, List.append_assoc], List.mem_append_left _ hin3⟩,
        fun H => (hpool3 H).trans (hpool4 H)⟩⟩
      · rw [hround, if_neg hz, hmap, Loop.ok_bind]
        simp only [ne_eq, show (-1 : Int) ≠ 0 by decide, not_false_eq_true, if_true]
        rw [hfree3, Loop.ok_bind, hun, Loop.ok_bind]
        rfl
      · rcases hv with hv | hv
        · exact hv.elim
        · omega

/-- The loop of `uvmcopy` from an aligned `i`, with `n` pages to go that end at or below
`TRAPFRAME`, on a child tree with no leaf from `i` on: it copies every page the parent maps and
returns `0`, the parent's leaves and pages untouched; or memory runs out, and it returns `-1` with
no user leaf left in the child and every page it took given back but page-table pages. The pool
of the child is kept either way. -/
theorem VmInv.uvmcopyLoop (hx : (sp x).root = some old) (hy : (sp y).root = some new)
    (hxy : x ≠ y) (n : Nat) :
    ∀ i vm, VmInv «end» k0 vm sp → i % PGSIZE = 0 → i + n * PGSIZE ≤ TRAPFRAME →
      LeavesBelow vm.mem new i →
      ∃ res vm', Xv6.uvmcopyLoop «end» old new n i vm = .ok (res, vm') ∧
        VmInv «end» k0 vm' sp ∧ HeldKept «end» vm vm' sp ∧
        (∀ H, Pool vm sp y H = Pool vm' sp y H) ∧
        ((res = 0 ∧ Copies vm vm' old new i (i + n * PGSIZE) ∧
            LeavesBelow vm'.mem new (i + n * PGSIZE) ∧
            LeavesOut vm vm' sp y (fun v => i ≤ v ∧ v < i + n * PGSIZE) ∧
            Grew vm vm' sp y (fun n => n.isNode = false)) ∨
          (res = -1 ∧ LeavesBelow vm'.mem new 0 ∧ LeavesOut vm vm' sp y (· < i + n * PGSIZE) ∧
            GaveBack vm vm' sp y ∧ RanOut vm vm')) := by
  have hT : TRAPFRAME < MAXVA := by decide
  induction n with
  | zero =>
    intro i vm h _ _ hb
    exact ⟨0, vm, rfl, h, HeldKept.refl vm sp, fun _ => rfl, .inl ⟨rfl,
      fun v _ h1 h2 => by omega, by simpa using hb, (LeavesKept.refl vm sp).out y _,
      Grew.refl _ _ _ _⟩⟩
  | succ n ih =>
    intro i vm h hi hend' hb
    have hP := PGSIZE_pos
    have hitf : i < TRAPFRAME := by rw [Nat.succ_mul] at hend'; omega
    have hi' : (i + PGSIZE) % PGSIZE = 0 := by rw [Nat.add_mod, hi]; simp [PGSIZE]
    have hend'' : i + PGSIZE + n * PGSIZE ≤ TRAPFRAME := by rw [Nat.succ_mul] at hend'; omega
    have hsucc : i + PGSIZE + n * PGSIZE = i + (n + 1) * PGSIZE := by rw [Nat.succ_mul]; omega
    cases hw : leafAt vm.mem old i with
    | none =>
      -- nothing to copy at `i`
      have hb1 : LeavesBelow vm.mem new (i + PGSIZE) := hb.mono (by omega)
      obtain ⟨res, vm', hrun, h', hk', hpool', hcase⟩ := ih (i + PGSIZE) vm h hi' hend'' hb1
      rw [hsucc] at hcase
      refine ⟨res, vm', by rw [uvmcopyLoop_skip (lt_trans hitf hT) hw, hrun], h', hk', hpool', ?_⟩
      rcases hcase with ⟨hres, hcopy, hb', hout, hgrew⟩ | ⟨hres, hb', hout, hback, hran⟩
      · refine .inl ⟨hres, fun v hv h1 h2 => ?_, hb', hout.mono fun v hv => ⟨by omega, hv.2⟩,
          hgrew⟩
        by_cases hvi : v = i
        · -- the child maps nothing at `i`, before and after
          subst hvi
          refine ⟨fun _ => ?_, fun w' hw' => by rw [hw] at hw'; cases hw'⟩
          rw [hout.leafAt hy hv (lt_trans hitf hT) fun h => by omega]
          exact hb.leafAt_eq_none hv le_rfl hitf
        · exact hcopy v hv (aligned_add_le hi hv (by omega)) h2
      · exact .inr ⟨hres, hb', hout.mono fun v hv => by omega, hback, hran⟩
    | some w =>
      rcases h.copyOne hend hy hi hitf hb hw with
        ⟨vm2, ⟨hstep, h2, hk2, ⟨pa, hpa, hcopy2, hleaf2, hat2⟩, hout2, hgrew2, ⟨evs, hc2⟩,
          hpool2⟩ | ⟨hstep, h2, hk2, hb2, hout2, hback2, hran2, hpool2⟩⟩
      · -- copied at `i`: the rest of the loop from the next page
        have hb2 : LeavesBelow vm2.mem new (i + PGSIZE) := hb.of_out hout2 hy (by omega)
          fun v _ hv => by
            subst hv
            exact ⟨lt_trans hitf hT, fun _ => .inr (.inr (by omega))⟩
        obtain ⟨res, vm', hrun, h', hk', hpool', hcase⟩ := ih (i + PGSIZE) vm2 h2 hi' hend'' hb2
        rw [hsucc] at hcase
        refine ⟨res, vm', by rw [hstep, hrun], h', hk2.trans hk', fun H => (hpool2 H).trans
          (hpool' H), ?_⟩
        rcases hcase with ⟨hres, hcopy, hb', hout, hgrew⟩ | ⟨hres, hb', hout, hback, hran⟩
        · -- the parent's tree and pages are as they were after the first round
          have hold : ∀ v, leafAt vm2.mem old v = leafAt vm.mem old v := fun v =>
            hout2 x old hx _ _ _ (PX_lt 2 v) (PX_lt 1 v) (PX_lt 0 v) fun e => absurd e hxy
          refine .inl ⟨hres, fun v hv h1 h3 => ?_, hb',
            (hout2.trans hout).mono fun v hv => ?_, (hgrew2.trans hgrew).mono fun n hn => ?_⟩
          · by_cases hvi : v = i
            · -- the page copied in the first round keeps its contents
              subst hvi
              refine ⟨fun h0 => absurd (hw.symm.trans h0) (by simp), fun w' hw' => ?_⟩
              rw [hw] at hw'
              cases hw'
              refine ⟨pa, hpa, ?_, ?_⟩
              · rw [hgrew.mem_eq (h2.excl.not_free _ _ hat2) fun n hn hpos => by
                  cases h'.excl.inj _ _ _ hpos (hgrew.keep _ _ hat2)
                  simp [TPos.isNode] at hn]
                exact hcopy2
              · rw [hout.leafAt hy hv (lt_trans hitf hT) (by omega), hleaf2]
            · have hv' := aligned_add_le hi hv (by omega)
              obtain ⟨hnone, hsome⟩ := hcopy v hv hv' h3
              rw [hold] at hnone hsome
              refine ⟨hnone, fun w' hw' => ?_⟩
              obtain ⟨pa', hpa', hc', hl'⟩ := hsome w' hw'
              exact ⟨pa', hgrew2.sub pa' hpa', by
                rw [hc', hgrew2.mem_of_leaf h h2 hx hxy hv (by omega) hw'], hl'⟩
          · rcases hv with hv | hv
            · subst hv
              exact ⟨le_rfl, by omega⟩
            · exact ⟨by omega, hv.2⟩
          · rcases hn with rfl | hn
            · rfl
            · exact hn
        · -- the rest of the loop gave up: the page of `i` went back with the others
          refine .inr ⟨hres, hb', (hout2.trans hout).mono fun v hv => by omega,
            hgrew2.gaveBack hback fun n hn => ?_, hran.prepend hc2⟩
          subst hn
          exact pageAt_leafAt_none hy (hb'.leafAt_eq_none hi (Nat.zero_le _) hitf)
      · -- memory ran out at `i`
        refine ⟨-1, vm2, hstep n, h2, hk2, hpool2, .inr ⟨rfl, hb2, hout2.mono fun v hv => by omega,
          hback2, hran2⟩⟩

/-- `uvmcopy(old, new, sz)` from the tree of `x` into the tree of `y`, which maps nothing below
`TRAPFRAME`: the loop from `0` over the pages below `PGROUNDUP(sz)`. -/
theorem VmInv.uvmcopy (h : VmInv «end» k0 vm sp) (hx : (sp x).root = some old)
    (hy : (sp y).root = some new) (hxy : x ≠ y) {sz : Nat} (hsz : sz ≤ TRAPFRAME)
    (hb : LeavesBelow vm.mem new 0) :
    ∃ res vm', Xv6.uvmcopy «end» old new sz vm = .ok (res, vm') ∧
      VmInv «end» k0 vm' sp ∧ HeldKept «end» vm vm' sp ∧
      (∀ H, Pool vm sp y H = Pool vm' sp y H) ∧ LeavesOut vm vm' sp y (· < PGROUNDUP sz) ∧
      ((res = 0 ∧ Copies vm vm' old new 0 (PGROUNDUP sz) ∧
          LeavesBelow vm'.mem new (PGROUNDUP sz) ∧ Grew vm vm' sp y fun n => n.isNode = false) ∨
        (res = -1 ∧ LeavesBelow vm'.mem new 0 ∧ GaveBack vm vm' sp y ∧ RanOut vm vm')) := by
  have hround : 0 + (sz + PGSIZE - 1) / PGSIZE * PGSIZE = PGROUNDUP sz := by
    rw [Nat.zero_add]
    rfl
  have hle : PGROUNDUP sz ≤ TRAPFRAME := PGROUNDUP_le_of_mod (by decide) hsz
  obtain ⟨res, vm', hrun, h', hk', hpool', hcase⟩ :=
    VmInv.uvmcopyLoop hend hx hy hxy _ 0 vm h (Nat.zero_mod _) (hround ▸ hle) hb
  rw [hround] at hcase
  rcases hcase with ⟨hres, hcopy, hb', hout, hgrew⟩ | ⟨hres, hb', hout, hback, hran⟩
  · exact ⟨res, vm', hrun, h', hk', hpool', hout.mono fun _ hv => hv.2,
      .inl ⟨hres, hcopy, hb', hgrew⟩⟩
  · exact ⟨res, vm', hrun, h', hk', hpool', hout, .inr ⟨hres, hb', hback, hran⟩⟩

/-- `uvmcopy(p->pagetable, np->pagetable, p->sz)` as `kfork` runs it, from a process whose memory
keeps `UserMem` into the tree of another holder that maps nothing below `TRAPFRAME`. It cannot
panic, keeps the invariant and the child's pool, and moves no leaf of the parent. On `0` the
child keeps `UserMem` at the parent's size and maps each page below `p->sz` exactly when the
parent does, with the parent's flags, to a page that was free and now holds what the parent's
page holds, which did not change. On `-1` the child maps nothing below `TRAPFRAME` and memory
ran out. -/
theorem uvmcopy_copies_pages {p : Proc} (hp : UserMem «end» k0 vm sp x p)
    (hy : (sp y).root = some new) (hxy : x ≠ y) (hb : LeavesBelow vm.mem new 0) :
    ∃ res vm', Xv6.uvmcopy «end» p.pagetable new p.sz vm = .ok (res, vm') ∧
      UserMem «end» k0 vm' sp x p ∧
      (∀ v, leafAt vm'.mem p.pagetable v = leafAt vm.mem p.pagetable v) ∧
      (∀ H, Pool vm sp y H = Pool vm' sp y H) ∧
      ((res = 0 ∧ UserMem «end» k0 vm' sp y { p with pagetable := new } ∧
          ∀ v, v % PGSIZE = 0 → v < p.sz →
            (leafAt vm'.mem new v).isSome = (leafAt vm.mem p.pagetable v).isSome ∧
            ∀ w w', leafAt vm.mem p.pagetable v = some w → leafAt vm'.mem new v = some w' →
              PTE_FLAGS w' = PTE_FLAGS w ∧ PTE2PA w' ∈ vm.kmem.freelist ∧
              vm'.mem (PTE2PA w') = vm'.mem (PTE2PA w) ∧
              vm'.mem (PTE2PA w) = vm.mem (PTE2PA w)) ∨
        (res = -1 ∧ LeavesBelow vm'.mem new 0 ∧ GaveBack vm vm' sp y ∧ RanOut vm vm')) := by
  obtain ⟨res, vm', hrun, h', -, hpool, hout, hcase⟩ :=
    hp.inv.uvmcopy hend hp.root hy hxy hp.sz_le hb
  have hleaf : ∀ v, leafAt vm'.mem p.pagetable v = leafAt vm.mem p.pagetable v := fun v =>
    hout x p.pagetable hp.root _ _ _ (PX_lt 2 v) (PX_lt 1 v) (PX_lt 0 v) fun e => absurd e hxy
  refine ⟨res, vm', hrun, hp.of_out h' hout hxy, hleaf, hpool, ?_⟩
  rcases hcase with ⟨hres, hcopy, hb', hgrew⟩ | hfail
  · refine .inl ⟨hres, ⟨h', hy, hp.sz_le, hb'⟩, fun v hv hlt => ?_⟩
    have hvt : v < TRAPFRAME := lt_of_lt_of_le hlt hp.sz_le
    obtain ⟨hsome, hpte⟩ :=
      hcopy.leaf hp.inv.kmem hv (Nat.zero_le v) (lt_of_lt_of_le hlt (le_PGROUNDUP p.sz))
    refine ⟨hsome, fun w w' hw hw' => ?_⟩
    -- the parent's page is as it was, so the copy holds what it holds now
    have hsame := hgrew.mem_of_leaf hp.inv h' hp.root hxy hv hvt hw
    obtain ⟨hflags, hfree, hmem⟩ := hpte w w' hw hw'
    exact ⟨hflags, hfree, hmem.trans hsame.symm, hsame⟩
  · exact .inr hfail

end Copy

/-- With a page to give, `uvmcreate` zeroes it: stated once for every `vm`, so that on a concrete
memory the kernel never runs `kalloc`. -/
theorem uvmcreate_snd {vm : Vm} (hz : vm.kalloc.2 ≠ 0) :
    (Xv6.uvmcreate vm).2 = vm.kalloc.1.zero vm.kalloc.2 := by
  simp only [Xv6.uvmcreate, if_neg hz]

/-- Two page tables that `uvmcreate` made of the first two pages `kalloc` gave out after `kinit`,
the trees of `false` and of `true`: the first, at any size up to `TRAPFRAME`, keeps `UserMem`,
and the second maps nothing. -/
theorem userMem_two_tables {sz : Nat} (hsz : sz ≤ TRAPFRAME) :
    let k0 := (kinit 0x80021000).getD Kmem.boot
    let pt := Xv6.uvmcreate ⟨k0, fun _ _ => 0, []⟩
    let pt' := Xv6.uvmcreate pt.2
    let sp := Space.setRoot (Space.setRoot (fun _ : Bool => ⟨none, none⟩) false pt.1) true pt'.1
    UserMem 0x80021000 k0 pt'.2 sp false { Proc.zero with pagetable := pt.1, sz := sz } ∧
      (sp true).root = some pt'.1 ∧ LeavesBelow pt'.2.mem pt'.1 0 := by
  intro k0 pt pt' sp
  have hend : KERNBASE ≤ 0x80021000 := by decide
  obtain ⟨s0, hs0, hinv, hall⟩ := kinit_spec 0x80021000
  have hk0 : k0 = s0 := by simp only [k0, hs0, Option.getD_some]
  rw [← hk0] at hinv hall
  have hz : (Vm.kalloc ⟨k0, fun _ _ => 0, []⟩).2 ≠ 0 :=
    Vm.kalloc_ne_zero hend hinv (List.ne_nil_of_mem (hall 0x80021000 (by decide)))
  obtain ⟨pt1, vm1, heq1, -, hcase1⟩ :=
    (VmInv.empty (ι := Bool) hinv).uvmcreate hend (x := false) rfl
  rcases hcase1 with ⟨hpt0, -⟩ | ⟨-, h1, hzero1, -⟩
  · exact absurd ((uvmcreate_fst hz).symm.trans ((congrArg Prod.fst heq1).trans hpt0)) hz
  -- `kinit` freed at least two pages, so the second `kalloc` finds one too
  have hne : vm1.kmem.freelist ≠ [] := by
    have hkm : vm1.kmem = (Vm.kalloc ⟨k0, fun _ _ => 0, []⟩).1.kmem := by
      have h2 : (Xv6.uvmcreate ⟨k0, fun _ _ => 0, []⟩).2 = vm1 := congrArg Prod.snd heq1
      rw [← h2, uvmcreate_snd hz, Vm.zero_kmem]
    have hfl : k0.freelist = (Vm.kalloc ⟨k0, fun _ _ => 0, []⟩).2 :: vm1.kmem.freelist := by
      rw [hkm]
      exact Vm.kalloc_freelist hz
    intro hnil
    have ha := hall 0x80021000 (by decide)
    have hb := hall 0x80022000 (by decide)
    simp only [hfl, hnil, List.mem_singleton] at ha hb
    exact absurd (ha.trans hb.symm) (by decide)
  have hz2 : vm1.kalloc.2 ≠ 0 := Vm.kalloc_ne_zero hend h1.kmem hne
  have hpt : pt = (pt1, vm1) := heq1
  obtain ⟨pt2, vm2, heq2, hkeep2, hcase2⟩ := h1.uvmcreate hend (x := true) (by simp [Space.setRoot])
  rcases hcase2 with ⟨hpt0, -⟩ | ⟨-, h2, hzero2, -⟩
  · exact absurd ((uvmcreate_fst hz2).symm.trans ((congrArg Prod.fst heq2).trans hpt0)) hz2
  have hpt' : pt' = (pt2, vm2) := by simp only [pt', hpt, heq2]
  simp only [sp, hpt', hpt]
  have hroot : (Space.setRoot (Space.setRoot (fun _ : Bool => ⟨none, none⟩) false pt1) true pt2
      false).root = some pt1 := by simp [Space.setRoot]
  refine ⟨⟨h2, hroot, hsz, fun i j k hi hj _ hs => ?_⟩, by simp [Space.setRoot],
    fun i j k _ _ _ hs => ?_⟩
  · rw [hkeep2 false pt1 (by simp [Space.setRoot]) i j k hi hj, leafPte_fresh hzero1] at hs
    cases hs
  · rw [leafPte_fresh hzero2] at hs
    cases hs

/-- The copy of a one-page process whose page table and its child's were the first pages
`kalloc` gave out after `kinit`. -/
theorem uvmcopy_copies_pages_first_tables :
    let k0 := (kinit 0x80021000).getD Kmem.boot
    let pt := Xv6.uvmcreate ⟨k0, fun _ _ => 0, []⟩
    let pt' := Xv6.uvmcreate pt.2
    let sp := Space.setRoot (Space.setRoot (fun _ : Bool => ⟨none, none⟩) false pt.1) true pt'.1
    let p : Proc := { Proc.zero with pagetable := pt.1, sz := PGSIZE }
    KERNBASE ≤ 0x80021000 ∧ UserMem 0x80021000 k0 pt'.2 sp false p ∧
      (sp true).root = some pt'.1 ∧ false ≠ true ∧ LeavesBelow pt'.2.mem pt'.1 0 ∧
      ∃ res vm', Xv6.uvmcopy 0x80021000 p.pagetable pt'.1 p.sz pt'.2 = .ok (res, vm') ∧
        UserMem 0x80021000 k0 vm' sp false p ∧
        (∀ v, leafAt vm'.mem p.pagetable v = leafAt pt'.2.mem p.pagetable v) ∧
        (∀ H, Pool pt'.2 sp true H = Pool vm' sp true H) ∧
        ((res = 0 ∧ UserMem 0x80021000 k0 vm' sp true { p with pagetable := pt'.1 } ∧
            ∀ v, v % PGSIZE = 0 → v < p.sz →
              (leafAt vm'.mem pt'.1 v).isSome = (leafAt pt'.2.mem p.pagetable v).isSome ∧
              ∀ w w', leafAt pt'.2.mem p.pagetable v = some w → leafAt vm'.mem pt'.1 v = some w' →
                PTE_FLAGS w' = PTE_FLAGS w ∧ PTE2PA w' ∈ pt'.2.kmem.freelist ∧
                vm'.mem (PTE2PA w') = vm'.mem (PTE2PA w) ∧
                vm'.mem (PTE2PA w) = pt'.2.mem (PTE2PA w)) ∨
          (res = -1 ∧ LeavesBelow vm'.mem pt'.1 0 ∧ GaveBack pt'.2 vm' sp true ∧
            RanOut pt'.2 vm')) :=
  have hend : KERNBASE ≤ 0x80021000 := by decide
  have h := userMem_two_tables (by decide : PGSIZE ≤ TRAPFRAME)
  ⟨hend, h.1, h.2.1, Bool.false_ne_true, h.2.2,
    uvmcopy_copies_pages hend h.1 h.2.1 Bool.false_ne_true h.2.2⟩

end Xv6
