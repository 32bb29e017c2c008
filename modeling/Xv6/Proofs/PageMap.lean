import Xv6.Proofs.VmProc

/-!
# The page table as a finite map

A tree of page-table pages stands for a finite map (`vmap`): a page-aligned `va` below `MAXVA`
whose indices `PX(2, va)`, `PX(1, va)`, `PX(0, va)` lead through valid entries to a valid leaf
maps to that leaf's page and flags. A tree is well formed (`WfTree`) when its page-table pages
are distinct, its interior entries carry none of `R`, `W`, `X`, and none of its page-table pages
is on the free list.

On such a tree `walk` without allocation returns the slot of the leaf of `va`, distinct pages
having distinct slots; with allocation it returns the same slot, adding only the page-table pages
missing on the way, taken from the free list (`Grows`). `mappages` adds its mappings, all of
them or, when `walk` runs out of memory, a prefix; `uvmunmap` removes the mappings of its range
and, with `do_free`, gives their pages to `kfree` in order. Every other address keeps what it
maps. `PageTableSpec` collects these facts, and `pagetable_finite_map` proves them of every
well-formed tree.
-/

namespace Xv6

/-! ## The map -/

/-- The page and the flags of a leaf PTE. -/
def pteMap (w : Nat) : Nat × Nat := (PTE2PA w, PTE_FLAGS w)

/-- What the tree below `r` maps `va` to. -/
def vmap (mem : Nat → Nat → Nat) (r va : Nat) : Option (Nat × Nat) :=
  if va % PGSIZE = 0 ∧ va < MAXVA then (leafAt mem r va).map pteMap else none

/-- The slot of the leaf PTE of `va`: its level-0 page and its index there. -/
def leafSlot (mem : Nat → Nat → Nat) (r va : Nat) : Option (Nat × Nat) :=
  (lowPage mem r (PX 2 va) (PX 1 va)).map (·, PX 0 va)

/-- The pages the mappings of `[a, a + n * PGSIZE)` map, in address order. -/
def mappedPages (mem : Nat → Nat → Nat) (r a n : Nat) : List Nat :=
  (List.range n).filterMap fun i => (leafAt mem r (a + i * PGSIZE)).map PTE2PA

/-- The leaf of `va` is the valid content of its slot. -/
theorem leafAt_eq_slot (mem : Nat → Nat → Nat) (r va : Nat) :
    leafAt mem r va = (leafSlot mem r va).bind fun s =>
      if Valid (mem s.1 s.2) then some (mem s.1 s.2) else none := by
  unfold leafAt leafPte leafSlot
  cases lowPage mem r (PX 2 va) (PX 1 va) <;> rfl

/-- A page-aligned address below `MAXVA` is one with the indices of its leaf. -/
theorem PX_eq_iff {va v : Nat} (hva : va % PGSIZE = 0) (hmax : va < MAXVA) (hv : v % PGSIZE = 0)
    (hvmax : v < MAXVA) :
    (PX 2 v, PX 1 v, PX 0 v) = (PX 2 va, PX 1 va, PX 0 va) ↔ v = va := by
  constructor
  · intro h
    simp only [Prod.mk.injEq] at h
    obtain ⟨h2, h1, h0⟩ := h
    rw [← vaOf_PX_of_mod hv hvmax, ← vaOf_PX_of_mod hva hmax, h2, h1, h0]
  · rintro rfl
    rfl

/-- A well-formed tree below `r`: its page-table pages are distinct, its interior entries point
to tables, and none of its page-table pages is free. -/
structure WfTree (vm : Vm) (r : Nat) : Prop where
  inj : NodesInj vm.mem r
  interior : Interior vm.mem r
  notFree : ∀ n p, n.isNode = true → tablePage vm.mem r n = some p → p ∉ vm.kmem.freelist

section Wf

variable {vm vm' : Vm} {r : Nat}

/-- Page-table pages that stay where they were stay distinct. -/
theorem NodesInj.of_nodes {mem mem' : Nat → Nat → Nat} (h : NodesInj mem r)
    (hn : ∀ n, n.isNode = true → tablePage mem' r n = tablePage mem r n) : NodesInj mem' r := by
  intro n n' p hn₁ hn₂ h₁ h₂
  rw [hn n hn₁] at h₁
  rw [hn n' hn₂] at h₂
  exact h n n' p hn₁ hn₂ h₁ h₂

/-- Only leaves moved, and no page left the free list. -/
theorem WfTree.of_nodes (hwf : WfTree vm r)
    (hn : ∀ n, n.isNode = true → tablePage vm'.mem r n = tablePage vm.mem r n)
    (hint : Interior vm'.mem r) (hfree : ∀ b ∈ vm'.kmem.freelist, b ∈ vm.kmem.freelist) :
    WfTree vm' r where
  inj := hwf.inj.of_nodes hn
  interior := hint
  notFree n p hnode hp hmem := by
    rw [hn n hnode] at hp
    exact hwf.notFree n p hnode hp (hfree p hmem)

/-- A page `pg` that was free, and is no longer, installed at a position `n` of the tree. -/
theorem WfTree.of_install (hwf : WfTree vm r) {n : TPos} {pg : Nat} (hpg : pg ∈ vm.kmem.freelist)
    (hsub : ∀ b ∈ vm'.kmem.freelist, b ∈ vm.kmem.freelist ∧ b ≠ pg)
    (hloc : tablePage vm'.mem r = Function.update (tablePage vm.mem r) n (some pg))
    (hint : Interior vm'.mem r) : WfTree vm' r := by
  -- no page-table page of the tree is `pg`
  have hnot : ∀ n' p, n'.isNode = true → tablePage vm.mem r n' = some p → p ≠ pg :=
    fun n' p hn' hp he => hwf.notFree n' p hn' hp (he ▸ hpg)
  refine ⟨fun n₁ n₂ p hn₁ hn₂ h₁ h₂ => ?_, hint, fun n' p hn' hp hmem => ?_⟩
  · rw [hloc, Function.update_apply] at h₁ h₂
    by_cases e₁ : n₁ = n <;> by_cases e₂ : n₂ = n
    · rw [e₁, e₂]
    · rw [if_pos e₁] at h₁
      rw [if_neg e₂] at h₂
      exact absurd (Option.some.inj h₁).symm (hnot n₂ p hn₂ h₂)
    · rw [if_neg e₁] at h₁
      rw [if_pos e₂] at h₂
      exact absurd (Option.some.inj h₂).symm (hnot n₁ p hn₁ h₁)
    · rw [if_neg e₁] at h₁
      rw [if_neg e₂] at h₂
      exact hwf.inj n₁ n₂ p hn₁ hn₂ h₁ h₂
  · obtain ⟨hold, hne⟩ := hsub p hmem
    rw [hloc, Function.update_apply] at hp
    split_ifs at hp with e
    · exact hne (Option.some.inj hp).symm
    · exact hwf.notFree n' p hn' hp hold

/-- A root with no valid entry, off the free list, is a well-formed tree with nothing mapped:
what `uvmcreate` makes. -/
theorem WfTree.fresh (hzero : ∀ i, ¬ Valid (vm.mem r i)) (hr : r ∉ vm.kmem.freelist) :
    WfTree vm r := by
  -- the root is the only page of the tree
  have hroot : ∀ n p, tablePage vm.mem r n = some p → n = .root ∧ p = r := by
    intro n p h
    by_cases hn : n = .root
    · subst hn
      exact ⟨rfl, (Option.some.inj h).symm⟩
    · rw [tablePage_fresh hzero hn] at h
      cases h
  refine ⟨fun n n' p _ _ h₁ h₂ => (hroot n p h₁).1.trans (hroot n' p h₂).1.symm,
    ⟨fun i _ hv => absurd hv (hzero i), fun i _ m hm => ?_⟩, fun n p _ h => (hroot n p h).2 ▸ hr⟩
  rw [midPage, child_eq_none.mpr (hzero i)] at hm
  cases hm

end Wf

/-! ## `walk` with allocation -/

/-- `vm'` is `vm` with, at most, page-table pages added on the path of `va` where there were
none, each a page that was free; the leaves are as they were, and the free list only lost
pages. -/
structure Grows (vm vm' : Vm) (r va : Nat) : Prop where
  sub : ∀ b ∈ vm'.kmem.freelist, b ∈ vm.kmem.freelist
  leaves : ∀ i j k, i < 512 → j < 512 → leafPte vm'.mem r i j k = leafPte vm.mem r i j k
  nodes : ∀ n, n.isNode = true → tablePage vm'.mem r n = tablePage vm.mem r n ∨
    ((n = .mid (PX 2 va) ∨ n = .low (PX 2 va) (PX 1 va)) ∧ tablePage vm.mem r n = none ∧
      ∃ pg ∈ vm.kmem.freelist, tablePage vm'.mem r n = some pg)

namespace Grows

variable {vm₁ vm₂ vm₃ : Vm} {r va : Nat}

theorem refl (vm : Vm) (r va : Nat) : Grows vm vm r va :=
  ⟨fun _ h => h, fun _ _ _ _ _ => rfl, fun _ _ => .inl rfl⟩

theorem trans (h₁ : Grows vm₁ vm₂ r va) (h₂ : Grows vm₂ vm₃ r va) : Grows vm₁ vm₃ r va := by
  refine ⟨fun b hb => h₁.sub b (h₂.sub b hb), fun i j k hi hj => ?_, fun n hn => ?_⟩
  · rw [h₂.leaves i j k hi hj, h₁.leaves i j k hi hj]
  · rcases h₂.nodes n hn with e₂ | ⟨hpath, hnone₂, pg, hpg, hnew⟩ <;>
      rcases h₁.nodes n hn with e₁ | ⟨hpath₁, hnone₁, pg₁, hpg₁, hnew₁⟩
    · exact .inl (e₂.trans e₁)
    · exact .inr ⟨hpath₁, hnone₁, pg₁, hpg₁, e₂.trans hnew₁⟩
    · -- added by the second step, where the first step left the position as it was
      exact .inr ⟨hpath, e₁ ▸ hnone₂, pg, h₁.sub pg hpg, hnew⟩
    · rw [hnew₁] at hnone₂
      cases hnone₂

/-- The map stays as it was. -/
theorem vmap_eq (h : Grows vm₁ vm₂ r va) (v : Nat) : vmap vm₂.mem r v = vmap vm₁.mem r v := by
  unfold vmap leafAt
  split_ifs
  · rw [h.leaves _ _ _ (PX_lt 2 v) (PX_lt 1 v)]
  · rfl

/-- Each page of the tree was at its position before, or was free. -/
theorem drawn (h : Grows vm₁ vm₂ r va) {n : TPos} {b : Nat} (hb : tablePage vm₂.mem r n = some b) :
    tablePage vm₁.mem r n = some b ∨ b ∈ vm₁.kmem.freelist := by
  cases hn : n.isNode with
  | true =>
    rcases h.nodes n hn with e | ⟨-, -, pg, hpg, hnew⟩
    · exact .inl (e ▸ hb)
    · rw [hnew, Option.some.injEq] at hb
      exact .inr (hb ▸ hpg)
  | false =>
    -- a leaf position: the leaves did not move
    cases n with
    | leaf i j k =>
      left
      simp only [Xv6.tablePage] at hb ⊢
      split_ifs at hb ⊢ with hu
      rwa [← h.leaves i j k hu.1 hu.2.1]
    | _ => cases hn

end Grows

section Walk

variable {«end» : Nat} {vm : Vm} {r : Nat}

/-- What a `kalloc` that returned a page did to the free list: it took that page off. -/
theorem kalloc_fresh (hk : KmemInv «end» vm.kmem) (hz : vm.kalloc.2 ≠ 0) :
    vm.kalloc.2 ∈ vm.kmem.freelist ∧ vm.kalloc.2 % PGSIZE = 0 ∧
      ∀ b ∈ vm.kalloc.1.kmem.freelist, b ∈ vm.kmem.freelist ∧ b ≠ vm.kalloc.2 := by
  cases hfl : vm.kmem.freelist with
  | nil => simp [Vm.kalloc, kalloc_nil hfl] at hz
  | cons pg next =>
    have hret : vm.kalloc.2 = pg := by simp [Vm.kalloc, kalloc_cons hfl]
    have hnext : vm.kalloc.1.kmem.freelist = next := by simp [Vm.kalloc, kalloc_cons hfl]
    have hnd : pg ∉ next := (List.nodup_cons.mp (hfl ▸ hk.nodup)).1
    rw [hret, hnext]
    refine ⟨by simp, (hk.free_managed pg (by simp [hfl])).1, fun b hb => ⟨by simp [hb], ?_⟩⟩
    rintro rfl
    exact hnd hb

/-- A free page is none of the page-table pages of the tree. -/
theorem WfTree.ne_of_free (hwf : WfTree vm r) {pg : Nat} (hpg : pg ∈ vm.kmem.freelist) :
    ∀ n p, n.isNode = true → tablePage vm.mem r n = some p → p ≠ pg :=
  fun n p hn hp e => hwf.notFree n p hn hp (e ▸ hpg)

variable (hend : KERNBASE ≤ «end»)
include hend

/-- The round of `walk` at the root: the level-1 page at `PX 2 va`, allocated when it is
missing and memory is left. -/
theorem WfTree.walkRoot (hwf : WfTree vm r) (hk : KmemInv «end» vm.kmem) (va : Nat) :
    WfTree (walkLevel true va 2 r vm).2 r ∧ KmemInv «end» (walkLevel true va 2 r vm).2.kmem ∧
      Grows vm (walkLevel true va 2 r vm).2 r va ∧
      (walkLevel true va 2 r vm).1 = midPage (walkLevel true va 2 r vm).2.mem r (PX 2 va) ∧
      (midPage vm.mem r (PX 2 va) ≠ none → (walkLevel true va 2 r vm).2 = vm) := by
  have hi : PX 2 va < 512 := PX_lt 2 va
  have hmid0 : ¬ Valid (vm.mem r (PX 2 va)) → midPage vm.mem r (PX 2 va) = none :=
    fun hv => by simp [midPage, child, hv]
  rw [walkLevel_true]
  split_ifs with hv hz
  · exact ⟨hwf, hk, .refl vm r va, by simp [midPage, child, hv], fun _ => rfl⟩
  all_goals replace hmid0 := hmid0 hv
  · -- out of memory: only the free list changed
    exact ⟨hwf.of_nodes (fun _ _ => rfl) hwf.interior kalloc_sub, hk.kalloc hend,
      ⟨kalloc_sub, fun _ _ _ _ _ => rfl, fun _ _ => .inl rfl⟩, hmid0.symm,
      fun h => absurd hmid0 h⟩
  · obtain ⟨hpgf, hpga, hsub⟩ := kalloc_fresh hk hz
    have hpgr : vm.kalloc.2 ≠ r := (hwf.ne_of_free hpgf .root r rfl rfl).symm
    obtain ⟨hmem, hc, hw, hnew⟩ := fresh_table vm.kalloc.1 (e := PX 2 va) hpga hpgr
    have hZ : ∀ n p, n.isNode = true → tablePage vm.kalloc.1.mem r n = some p →
        (vm.kalloc.1.zero vm.kalloc.2).mem p = vm.kalloc.1.mem p := fun n p hn hp => by
      rw [Vm.kalloc_mem] at hp ⊢
      simp [Vm.zero_mem, hwf.ne_of_free hpgf n p hn hp]
    have hinjZ := hwf.inj.congr hZ
    have hwm : ∀ p, ((vm.kalloc.1.zero vm.kalloc.2).write r (PX 2 va)
        (PA2PTE vm.kalloc.2 ||| PTE_V)).mem p = if p = r then
          Function.update ((vm.kalloc.1.zero vm.kalloc.2).mem r) (PX 2 va)
            (PA2PTE vm.kalloc.2 ||| PTE_V) else (vm.kalloc.1.zero vm.kalloc.2).mem p :=
      fun p => Vm.write_mem _ _ _ _ p
    have hold : ∀ j, lowPage (vm.kalloc.1.zero vm.kalloc.2).mem r (PX 2 va) j = none := by
      intro j
      simp [lowPage, midPage, child, Vm.zero_mem, hpgr.symm, hv]
    have hloc := tablePage_writeRoot hinjZ hi hwm hnew hold
    rw [hc, tablePage_congr hZ, Vm.kalloc_mem] at hloc
    refine ⟨hwf.of_install hpgf hsub hloc
        ((hwf.interior.congr hZ).writeRoot hinjZ hwm hw hnew), hk.kalloc hend,
      ⟨fun b hb => (hsub b hb).1, fun i j k hi' hj' => ?_, fun n _ => ?_⟩,
      by simp [midPage, Vm.write_mem, hc], fun h => absurd hmid0 h⟩
    · exact (leafPte_writeRoot hinjZ hwm hnew hold hi' hj').trans (leafPte_congr_nodes hZ hi' hj')
    · rw [hloc, Function.update_apply]
      split_ifs with e
      · subst e
        exact .inr ⟨.inl rfl, by simp [tablePage, hi, hmid0], _, hpgf, rfl⟩
      · exact .inl rfl

/-- The round of `walk` at level 1, below the level-1 page `m` of `va`: the level-0 page at
`(PX 2 va, PX 1 va)`, allocated when it is missing and memory is left. -/
theorem WfTree.walkMid (hwf : WfTree vm r) (hk : KmemInv «end» vm.kmem) {va m : Nat}
    (hm : midPage vm.mem r (PX 2 va) = some m) :
    WfTree (walkLevel true va 1 m vm).2 r ∧ KmemInv «end» (walkLevel true va 1 m vm).2.kmem ∧
      Grows vm (walkLevel true va 1 m vm).2 r va ∧
      (walkLevel true va 1 m vm).1 =
        lowPage (walkLevel true va 1 m vm).2.mem r (PX 2 va) (PX 1 va) ∧
      (lowPage vm.mem r (PX 2 va) (PX 1 va) ≠ none → (walkLevel true va 1 m vm).2 = vm) := by
  have hi : PX 2 va < 512 := PX_lt 2 va
  have hj : PX 1 va < 512 := PX_lt 1 va
  have hlow0 : ¬ Valid (vm.mem m (PX 1 va)) → lowPage vm.mem r (PX 2 va) (PX 1 va) = none :=
    fun hv => by simp [lowPage, hm, child, hv]
  rw [walkLevel_true]
  split_ifs with hv hz
  · exact ⟨hwf, hk, .refl vm r va, by simp [lowPage, hm, child, hv], fun _ => rfl⟩
  all_goals replace hlow0 := hlow0 hv
  · exact ⟨hwf.of_nodes (fun _ _ => rfl) hwf.interior kalloc_sub, hk.kalloc hend,
      ⟨kalloc_sub, fun _ _ _ _ _ => rfl, fun _ _ => .inl rfl⟩, hlow0.symm,
      fun h => absurd hlow0 h⟩
  · obtain ⟨hpgf, hpga, hsub⟩ := kalloc_fresh hk hz
    have hmid : tablePage vm.mem r (.mid (PX 2 va)) = some m := by simp [tablePage, hi, hm]
    have hpgm : vm.kalloc.2 ≠ m := (hwf.ne_of_free hpgf _ m rfl hmid).symm
    obtain ⟨hmem, hc, hw, hnew⟩ := fresh_table vm.kalloc.1 (e := PX 1 va) hpga hpgm
    have hZ : ∀ n p, n.isNode = true → tablePage vm.kalloc.1.mem r n = some p →
        (vm.kalloc.1.zero vm.kalloc.2).mem p = vm.kalloc.1.mem p := fun n p hn hp => by
      rw [Vm.kalloc_mem] at hp ⊢
      simp [Vm.zero_mem, hwf.ne_of_free hpgf n p hn hp]
    have hinjZ := hwf.inj.congr hZ
    have hmZ : midPage (vm.kalloc.1.zero vm.kalloc.2).mem r (PX 2 va) = some m := by
      have := tablePage_congr hZ ▸ hmid
      simpa [tablePage, hi] using this
    have hwm : ∀ p, ((vm.kalloc.1.zero vm.kalloc.2).write m (PX 1 va)
        (PA2PTE vm.kalloc.2 ||| PTE_V)).mem p = if p = m then
          Function.update ((vm.kalloc.1.zero vm.kalloc.2).mem m) (PX 1 va)
            (PA2PTE vm.kalloc.2 ||| PTE_V) else (vm.kalloc.1.zero vm.kalloc.2).mem p :=
      fun p => Vm.write_mem _ _ _ _ p
    have hold : ∀ k, leafPte (vm.kalloc.1.zero vm.kalloc.2).mem r (PX 2 va) (PX 1 va) k =
        none := by
      intro k
      simp [leafPte, lowPage, hmZ, child, Vm.zero_mem, hpgm.symm, hv]
    have hloc := tablePage_writeMid hinjZ hi hj hmZ hwm hnew hold
    rw [hc, tablePage_congr hZ, Vm.kalloc_mem] at hloc
    refine ⟨hwf.of_install hpgf hsub hloc
        ((hwf.interior.congr hZ).writeMid hinjZ hi hmZ hwm hw), hk.kalloc hend,
      ⟨fun b hb => (hsub b hb).1, fun i j k hi' hj' => ?_, fun n _ => ?_⟩, ?_,
      fun h => absurd hlow0 h⟩
    · exact (leafPte_writeMid hinjZ hi hmZ hwm hnew hold hi' hj').trans
        (leafPte_congr_nodes hZ hi' hj')
    · rw [hloc, Function.update_apply]
      split_ifs with e
      · subst e
        exact .inr ⟨.inr rfl, by simp [tablePage, hi, hj, hlow0], _, hpgf, rfl⟩
      · exact .inl rfl
    · rw [lowPage_writeMid hinjZ hi hmZ hwm hi, if_pos rfl, hc]

/-- `walk` with allocation below `MAXVA` on a well-formed tree: it returns the slot of the leaf
of `va` when there is or can be one, adding only the page-table pages missing on the way, and
nothing when the slot was there. -/
theorem WfTree.walk_true (hwf : WfTree vm r) (hk : KmemInv «end» vm.kmem) {va : Nat}
    (hva : va < MAXVA) :
    ∃ res vm', walk r va true vm = .ok (res, vm') ∧ WfTree vm' r ∧ KmemInv «end» vm'.kmem ∧
      Grows vm vm' r va ∧ res = leafSlot vm'.mem r va ∧
      (leafSlot vm.mem r va ≠ none → vm' = vm) := by
  have hmid : leafSlot vm.mem r va ≠ none → midPage vm.mem r (PX 2 va) ≠ none := by
    intro hs hm
    exact hs (by simp [leafSlot, lowPage, hm])
  obtain ⟨h1, hk1, hg1, he1, hsame1⟩ := hwf.walkRoot hend hk va
  unfold walk
  rw [if_neg (Nat.not_le.mpr hva)]
  generalize walkLevel true va 2 r vm = w1 at h1 hk1 hg1 he1 hsame1
  obtain ⟨o1, vm1⟩ := w1
  cases o1 with
  | none =>
    exact ⟨_, _, rfl, h1, hk1, hg1, by simp [leafSlot, lowPage, ← he1],
      fun hs => hsame1 (hmid hs)⟩
  | some m =>
    -- the level-1 page is there: the round at level 1
    dsimp only at h1 hk1 hg1 he1 hsame1 ⊢
    obtain ⟨h2, hk2, hg2, he2, hsame2⟩ := h1.walkMid hend hk1 he1.symm
    generalize walkLevel true va 1 m vm1 = w2 at h2 hk2 hg2 he2 hsame2
    obtain ⟨o2, vm2⟩ := w2
    -- a slot that was there stays, and neither round allocates
    have hkeep : leafSlot vm.mem r va ≠ none → vm2 = vm := by
      intro hs
      have e1 := hsame1 (hmid hs)
      subst e1
      exact hsame2 fun hl => hs (by simp [leafSlot, hl])
    cases o2 with
    | none => exact ⟨_, _, rfl, h2, hk2, hg1.trans hg2, by simp [leafSlot, ← he2], hkeep⟩
    | some l => exact ⟨_, _, rfl, h2, hk2, hg1.trans hg2, by simp [leafSlot, ← he2], hkeep⟩

end Walk

/-! ## Writing a leaf -/

section Leaf

variable {vm : Vm} {r a l : Nat}

/-- A write to the slot of the leaf of `a` changes the leaf of `a` and no other. -/
theorem leafAt_writeLeaf (hinj : NodesInj vm.mem r) (ha : a % PGSIZE = 0) (hmax : a < MAXVA)
    (hl : lowPage vm.mem r (PX 2 a) (PX 1 a) = some l) (w : Nat) {v : Nat}
    (hv : v % PGSIZE = 0) (hvmax : v < MAXVA) :
    leafAt (vm.write l (PX 0 a) w).mem r v =
      if v = a then (if Valid w then some w else none) else leafAt vm.mem r v := by
  rw [leafAt, leafPte_writeLow hinj (PX_lt 2 a) (PX_lt 1 a) hl (Vm.write_mem vm l (PX 0 a) w)
    (PX_lt 2 v) (PX_lt 1 v)]
  by_cases hva : v = a
  · subst hva
    simp
  · rw [if_neg ((PX_eq_iff ha hmax hv hvmax).not.mpr hva), if_neg hva]
    rfl

/-- The same, read as the map. -/
theorem vmap_writeLeaf (hinj : NodesInj vm.mem r) (ha : a % PGSIZE = 0) (hmax : a < MAXVA)
    (hl : lowPage vm.mem r (PX 2 a) (PX 1 a) = some l) (w v : Nat) :
    vmap (vm.write l (PX 0 a) w).mem r v =
      if v = a then (if Valid w then some (pteMap w) else none) else vmap vm.mem r v := by
  unfold vmap
  by_cases hv : v % PGSIZE = 0 ∧ v < MAXVA
  · rw [if_pos hv, if_pos hv, leafAt_writeLeaf hinj ha hmax hl w hv.1 hv.2]
    split_ifs <;> rfl
  · have hva : v ≠ a := fun e => hv (e ▸ ⟨ha, hmax⟩)
    rw [if_neg hv, if_neg hv, if_neg hva]

/-- A write to a leaf slot moves no page-table page. -/
theorem tablePage_writeLeaf (hinj : NodesInj vm.mem r)
    (hl : lowPage vm.mem r (PX 2 a) (PX 1 a) = some l) (w : Nat) {n : TPos}
    (hn : n.isNode = true) :
    tablePage (vm.write l (PX 0 a) w).mem r n = tablePage vm.mem r n := by
  rw [tablePage_writeLow hinj (PX_lt 2 a) (PX_lt 1 a) hl (Vm.write_mem vm l (PX 0 a) w),
    Function.update_of_ne]
  rintro rfl
  cases hn

/-- A write to the slot of the leaf of `a`: the tree stays well formed, and the map changes at
`a` only. -/
theorem WfTree.writeLeaf (hwf : WfTree vm r) (ha : a % PGSIZE = 0) (hmax : a < MAXVA)
    (hl : lowPage vm.mem r (PX 2 a) (PX 1 a) = some l) (w : Nat) :
    WfTree (vm.write l (PX 0 a) w) r ∧ ∀ v, vmap (vm.write l (PX 0 a) w).mem r v =
      if v = a then (if Valid w then some (pteMap w) else none) else vmap vm.mem r v :=
  ⟨hwf.of_nodes (fun _ hn => tablePage_writeLeaf hwf.inj hl w hn)
      (hwf.interior.writeLow hwf.inj (PX_lt 2 a) (PX_lt 1 a) hl (Vm.write_mem vm l (PX 0 a) w))
      fun _ hb => hb,
    vmap_writeLeaf hwf.inj ha hmax hl w⟩

end Leaf

/-! ## `mappages` -/

/-- The pages from `a` up to `m` more, split at the first. -/
theorem exists_lt_succ_iff {a v m : Nat} :
    (∃ i < m + 1, v = a + i * PGSIZE) ↔ v = a ∨ ∃ i < m, v = a + PGSIZE + i * PGSIZE := by
  constructor
  · rintro ⟨i, hi, rfl⟩
    cases i with
    | zero => exact .inl (by simp)
    | succ i => exact .inr ⟨i, by omega, by rw [Nat.succ_mul]; omega⟩
  · rintro (rfl | ⟨i, hi, rfl⟩)
    · exact ⟨0, by omega, by simp⟩
    · exact ⟨i + 1, by omega, by rw [Nat.succ_mul]; omega⟩

section Map

variable {«end» : Nat} {r : Nat} (hend : KERNBASE ≤ «end»)
include hend

/-- The loop of `mappages` over `n` pages from an aligned `a` where nothing is mapped: it maps
`a + i * PGSIZE` to `pa + i * PGSIZE` with `perm`, for every `i` below `n` (then returning `0`)
or below some `m < n` (then returning `-1`, when `walk` ran out of memory), and changes no other
mapping. -/
theorem WfTree.mappagesLoop (perm : Nat) (n : Nat) :
    ∀ a pa vm, WfTree vm r → KmemInv «end» vm.kmem → a % PGSIZE = 0 → a + n * PGSIZE ≤ MAXVA →
      (∀ i < n, vmap vm.mem r (a + i * PGSIZE) = none) →
      ∃ res vm' m, Xv6.mappagesLoop r perm n a pa vm = .ok (res, vm') ∧ WfTree vm' r ∧
        KmemInv «end» vm'.kmem ∧ (res = 0 ∧ m = n ∨ res = -1 ∧ m < n) ∧
        ∀ v, vmap vm'.mem r v = if ∃ i < m, v = a + i * PGSIZE then
          some (pteMap (PA2PTE (pa + (v - a)) ||| perm ||| PTE_V)) else vmap vm.mem r v := by
  induction n with
  | zero =>
    intro a pa vm hwf hk _ _ _
    exact ⟨0, vm, 0, rfl, hwf, hk, .inl ⟨rfl, rfl⟩, fun v => by simp⟩
  | succ n ih =>
    intro a pa vm hwf hk ha hmax hnone
    have hP := PGSIZE_pos
    have hamax : a < MAXVA := by rw [Nat.succ_mul] at hmax; omega
    obtain ⟨res, vm1, hwalk, h1, hk1, hg1, rfl, -⟩ := hwf.walk_true hend hk hamax
    rw [Xv6.mappagesLoop, hwalk, Loop.ok_bind]
    cases hlow : lowPage vm1.mem r (PX 2 a) (PX 1 a) with
    | none =>
      -- `walk` could not allocate a page-table page
      simp only [leafSlot, hlow, Option.map_none]
      exact ⟨-1, vm1, 0, rfl, h1, hk1, .inr ⟨rfl, by omega⟩, fun v => by simp [hg1.vmap_eq]⟩
    | some l =>
      simp only [leafSlot, hlow, Option.map_some]
      -- nothing is mapped at `a`, so its slot holds no valid PTE
      have hfree : ¬ Valid (vm1.mem l (PX 0 a)) := by
        intro hv
        have h0 := hnone 0 (by omega)
        rw [← hg1.vmap_eq, vmap, if_pos ⟨by simpa using ha, by simpa using hamax⟩] at h0
        simp [leafAt_eq_slot, leafSlot, hlow, hv] at h0
      rw [if_neg (show ¬ (vm1.mem l (PX 0 a) &&& PTE_V ≠ 0) from hfree)]
      obtain ⟨h2, hmap2⟩ := h1.writeLeaf ha hamax hlow (PA2PTE pa ||| perm ||| PTE_V)
      rw [if_pos (valid_or_PTE_V _)] at hmap2
      have hnone' : ∀ i < n, vmap (vm1.write l (PX 0 a) (PA2PTE pa ||| perm ||| PTE_V)).mem r
          (a + PGSIZE + i * PGSIZE) = none := by
        intro i hi
        rw [hmap2, if_neg (by omega), hg1.vmap_eq]
        have := hnone (i + 1) (by omega)
        rwa [Nat.succ_mul, ← Nat.add_assoc, Nat.add_right_comm] at this
      obtain ⟨res, vm', m, hrun, h', hk', hres, hmap'⟩ := ih (a + PGSIZE) (pa + PGSIZE) _ h2 hk1
        (by rw [Nat.add_mod, ha]; simp [PGSIZE]) (by rw [Nat.succ_mul] at hmax; omega) hnone'
      refine ⟨res, vm', m + 1, hrun, h', hk', ?_, fun v => ?_⟩
      · rcases hres with ⟨rfl, rfl⟩ | ⟨rfl, hm⟩
        · exact .inl ⟨rfl, rfl⟩
        · exact .inr ⟨rfl, by omega⟩
      · rw [hmap', hmap2, hg1.vmap_eq]
        by_cases hrest : ∃ i < m, v = a + PGSIZE + i * PGSIZE
        · -- a later page: its frame is as far from `pa` as the page is from `a`
          obtain ⟨i, hi, hv⟩ := hrest
          rw [if_pos ⟨i, hi, hv⟩, if_pos (exists_lt_succ_iff.mpr (.inr ⟨i, hi, hv⟩)),
            show pa + PGSIZE + (v - (a + PGSIZE)) = pa + (v - a) by omega]
        · rw [if_neg hrest]
          by_cases hva : v = a
          · rw [if_pos hva, if_pos (exists_lt_succ_iff.mpr (.inl hva)), hva, Nat.sub_self,
              Nat.add_zero]
          · rw [if_neg hva, if_neg fun h => (exists_lt_succ_iff.mp h).elim hva hrest]

/-- `mappages(pagetable, va, size, pa, perm)` on an aligned range below `MAXVA` where nothing is
mapped: its pages map to the frames from `pa` on with `perm`, all of them (it returns `0`) or
the first `m` (it returns `-1`), and no other mapping changes. -/
theorem WfTree.mappages {vm : Vm} (hwf : WfTree vm r) (hk : KmemInv «end» vm.kmem)
    {va size : Nat} (pa perm : Nat) (hva : va % PGSIZE = 0) (hsize : size % PGSIZE = 0)
    (hpos : 0 < size) (hmax : va + size ≤ MAXVA)
    (hnone : ∀ i < size / PGSIZE, vmap vm.mem r (va + i * PGSIZE) = none) :
    ∃ res vm' m, mappages r va size pa perm vm = .ok (res, vm') ∧ WfTree vm' r ∧
      KmemInv «end» vm'.kmem ∧ (res = 0 ∧ m = size / PGSIZE ∨ res = -1 ∧ m < size / PGSIZE) ∧
      ∀ v, vmap vm'.mem r v = if ∃ i < m, v = va + i * PGSIZE then
        some (pteMap (PA2PTE (pa + (v - va)) ||| perm ||| PTE_V)) else vmap vm.mem r v := by
  rw [Xv6.mappages, if_neg (by omega), if_neg (by omega), if_neg (by omega)]
  have hn : size / PGSIZE * PGSIZE = size := Nat.div_mul_cancel (Nat.dvd_of_mod_eq_zero hsize)
  exact WfTree.mappagesLoop hend perm _ va pa vm hwf hk hva (by rw [hn]; exact hmax) hnone

/-- Every page of the tree after `mappages` of one page was at its position before, or was free,
or is the page the new leaf maps, when that leaf is a user leaf. -/
theorem WfTree.mappages_drawn {vm vm' : Vm} (hwf : WfTree vm r) (hk : KmemInv «end» vm.kmem)
    {va pa perm : Nat} {res : Int} (hmax : va < MAXVA)
    (h : Xv6.mappages r va PGSIZE pa perm vm = .ok (res, vm')) {n : TPos} {b : Nat}
    (hb : tablePage vm'.mem r n = some b) :
    tablePage vm.mem r n = some b ∨ b ∈ vm.kmem.freelist ∨
      UserLeaf (PX 2 va) (PX 1 va) (PX 0 va) ∧ b = PTE2PA (PA2PTE pa ||| perm ||| PTE_V) := by
  obtain ⟨res1, vm1, hwalk, hwf1, -, hg1, rfl, -⟩ := hwf.walk_true hend hk hmax
  unfold Xv6.mappages at h
  split_ifs at h
  rw [Nat.div_self (by decide), Xv6.mappagesLoop, hwalk, Loop.ok_bind] at h
  cases hlow : lowPage vm1.mem r (PX 2 va) (PX 1 va) with
  | none =>
    -- `walk` ran out of memory, and nothing else happened
    simp only [leafSlot, hlow, Option.map_none] at h
    obtain ⟨-, rfl⟩ := Prod.mk.inj (Except.ok.inj h)
    exact (hg1.drawn hb).imp_right .inl
  | some l =>
    simp only [leafSlot, hlow, Option.map_some] at h
    split_ifs at h
    · -- the slot held a valid PTE: `mappages: remap`
      cases h
    rw [Xv6.mappagesLoop] at h
    obtain ⟨-, rfl⟩ := Prod.mk.inj (Except.ok.inj h)
    -- the write to the leaf's slot changed the leaf's position only
    rw [tablePage_writeLow hwf1.inj (PX_lt 2 va) (PX_lt 1 va) hlow (Vm.write_mem _ _ _ _),
      Function.update_apply] at hb
    by_cases hn : n = .leaf (PX 2 va) (PX 1 va) (PX 0 va)
    · rw [if_pos hn, ite_eq_iff] at hb
      rcases hb with ⟨hu, hb⟩ | ⟨-, hb⟩
      · exact .inr (.inr ⟨hu.1, (Option.some.inj hb).symm⟩)
      · cases hb
    · rw [if_neg hn] at hb
      exact (hg1.drawn hb).imp_right .inl

end Map

/-! ## `uvmunmap` -/

theorem mappedPages_succ (mem : Nat → Nat → Nat) (r a n : Nat) :
    mappedPages mem r a (n + 1) =
      ((leafAt mem r a).map PTE2PA).toList ++ mappedPages mem r (a + PGSIZE) n := by
  unfold mappedPages
  rw [List.range_succ_eq_map, List.filterMap_cons, List.filterMap_map]
  have hshift : (fun i => (leafAt mem r (a + i * PGSIZE)).map PTE2PA) ∘ Nat.succ =
      fun i => (leafAt mem r (a + PGSIZE + i * PGSIZE)).map PTE2PA := by
    funext i
    simp only [Function.comp_apply, Nat.succ_mul]
    rw [Nat.add_comm (i * PGSIZE) PGSIZE, Nat.add_assoc]
  rw [hshift, Nat.zero_mul, Nat.add_zero]
  cases leafAt mem r a <;> rfl

theorem mappedPages_congr {mem mem' : Nat → Nat → Nat} {r a n : Nat}
    (h : ∀ i < n, leafAt mem' r (a + i * PGSIZE) = leafAt mem r (a + i * PGSIZE)) :
    mappedPages mem' r a n = mappedPages mem r a n := by
  unfold mappedPages
  exact List.filterMap_congr fun i hi => by rw [h i (List.mem_range.mp hi)]

/-- The range of the loop from `a`, against the range of the rest of the loop after the page
at `a`, over a map that has nothing at `a` (and nothing off the page boundaries). -/
theorem unmap_range_succ {f g : Nat → Option (Nat × Nat)} {a n : Nat} (ha : a % PGSIZE = 0)
    (hf : ∀ v, v % PGSIZE ≠ 0 → f v = none) (hga : g a = none) (hg : ∀ v, v ≠ a → g v = f v)
    (v : Nat) :
    (if a + PGSIZE ≤ v ∧ v < a + PGSIZE + n * PGSIZE then none else g v) =
      if a ≤ v ∧ v < a + (n + 1) * PGSIZE then none else f v := by
  have hP := PGSIZE_pos
  by_cases hva : v = a
  · subst hva
    rw [if_neg (by omega), if_pos ⟨le_rfl, by rw [Nat.succ_mul]; omega⟩, hga]
  · rw [hg v hva]
    by_cases hv : v % PGSIZE = 0
    · -- an aligned address past `a` is a page past it
      have hiff : (a + PGSIZE ≤ v ∧ v < a + PGSIZE + n * PGSIZE) ↔
          (a ≤ v ∧ v < a + (n + 1) * PGSIZE) := by
        rw [Nat.succ_mul]
        constructor
        · rintro ⟨h1, h2⟩
          exact ⟨by omega, by omega⟩
        · rintro ⟨h1, h2⟩
          exact ⟨aligned_add_le ha hv (by omega), by omega⟩
      by_cases h : a ≤ v ∧ v < a + (n + 1) * PGSIZE
      · rw [if_pos (hiff.mpr h), if_pos h]
      · rw [if_neg (mt hiff.mp h), if_neg h]
    · rw [hf v hv]
      split_ifs <;> rfl

theorem vmap_of_not_aligned (mem : Nat → Nat → Nat) (r : Nat) {v : Nat} (hv : v % PGSIZE ≠ 0) :
    vmap mem r v = none := by
  rw [vmap, if_neg fun h => hv h.1]

section Unmap

variable {«end» : Nat} {r : Nat}

/-- The loop of `uvmunmap` over `n` pages from an aligned `a`, below `MAXVA`: the mappings of
the range go and no other; with `do_free` the pages they mapped go to `kfree`, in address order,
and the allocator is called for nothing else; the page-table pages stay. -/
theorem NodesInj.uvmunmapLoop (doFree : Bool) (n : Nat) :
    ∀ a vm, NodesInj vm.mem r → a % PGSIZE = 0 → a + n * PGSIZE ≤ MAXVA →
      (doFree = true → ∀ p ∈ mappedPages vm.mem r a n, Managed «end» p) →
      ∃ vm', Xv6.uvmunmapLoop «end» r doFree n a vm = .ok vm' ∧
        (∀ t, t.isNode = true → tablePage vm'.mem r t = tablePage vm.mem r t) ∧
        (∀ v, vmap vm'.mem r v = if a ≤ v ∧ v < a + n * PGSIZE then none else vmap vm.mem r v) ∧
        vm'.calls = vm.calls ++
          (if doFree then (mappedPages vm.mem r a n).map KEvent.kfree else []) ∧
        (doFree = false → vm'.kmem = vm.kmem) := by
  induction n with
  | zero =>
    intro a vm _ _ _ _
    exact ⟨vm, rfl, fun _ _ => rfl, fun v => by simp, by simp [mappedPages], fun _ => rfl⟩
  | succ n ih =>
    intro a vm hinj ha hmax hfree
    have hP := PGSIZE_pos
    have hamax : a < MAXVA := by rw [Nat.succ_mul] at hmax; omega
    have ha' : (a + PGSIZE) % PGSIZE = 0 := by rw [Nat.add_mod, ha]; simp [PGSIZE]
    have hmax' : a + PGSIZE + n * PGSIZE ≤ MAXVA := by rw [Nat.succ_mul] at hmax; omega
    have hf := fun v => vmap_of_not_aligned vm.mem r (v := v)
    rw [Xv6.uvmunmapLoop, walk_false _ hamax, Loop.ok_bind]
    -- nothing mapped at `a`: the loop goes on with the state as it is
    have hskip : leafAt vm.mem r a = none → ∃ vm', Xv6.uvmunmapLoop «end» r doFree n
        (a + PGSIZE) vm = .ok vm' ∧
        (∀ t, t.isNode = true → tablePage vm'.mem r t = tablePage vm.mem r t) ∧
        (∀ v, vmap vm'.mem r v = if a ≤ v ∧ v < a + (n + 1) * PGSIZE then none
          else vmap vm.mem r v) ∧
        vm'.calls = vm.calls ++
          (if doFree then (mappedPages vm.mem r a (n + 1)).map KEvent.kfree else []) ∧
        (doFree = false → vm'.kmem = vm.kmem) := by
      intro hnone
      have hpages : mappedPages vm.mem r a (n + 1) = mappedPages vm.mem r (a + PGSIZE) n := by
        simp [mappedPages_succ, hnone]
      rw [hpages] at hfree ⊢
      obtain ⟨vm', hrun, hnodes, hmap, hcalls, hkmem⟩ := ih (a + PGSIZE) vm hinj ha' hmax' hfree
      refine ⟨vm', hrun, hnodes, fun v => ?_, hcalls, hkmem⟩
      rw [hmap v]
      exact unmap_range_succ ha hf (by simp [vmap, hnone]) (fun _ _ => rfl) v
    cases hlow : lowPage vm.mem r (PX 2 a) (PX 1 a) with
    | none => exact hskip (by simp [leafAt, leafPte, hlow])
    | some l =>
      simp only [Option.map_some]
      by_cases hv : Valid (vm.mem l (PX 0 a))
      · rw [if_neg (show ¬ (vm.mem l (PX 0 a) &&& PTE_V = 0) from hv)]
        have hleaf : leafAt vm.mem r a = some (vm.mem l (PX 0 a)) := by
          simp [leafAt, leafPte, hlow, hv]
        have hpages : mappedPages vm.mem r a (n + 1) =
            PTE2PA (vm.mem l (PX 0 a)) :: mappedPages vm.mem r (a + PGSIZE) n := by
          simp [mappedPages_succ, hleaf]
        -- the leaf is cleared in a state whose memory is that of `vm`
        have hclear : ∀ vm1 : Vm, vm1.mem = vm.mem →
            ∃ vm', Xv6.uvmunmapLoop «end» r doFree n (a + PGSIZE) (vm1.write l (PX 0 a) 0) =
              .ok vm' ∧
              (∀ t, t.isNode = true → tablePage vm'.mem r t = tablePage vm.mem r t) ∧
              (∀ v, vmap vm'.mem r v = if a ≤ v ∧ v < a + (n + 1) * PGSIZE then none
                else vmap vm.mem r v) ∧
              vm'.calls = vm1.calls ++ (if doFree then
                (mappedPages vm.mem r (a + PGSIZE) n).map KEvent.kfree else []) ∧
              (doFree = false → vm'.kmem = vm1.kmem) := by
          intro vm1 hm1
          rw [← hm1] at hinj hlow
          have hsame : ∀ i < n, leafAt (vm1.write l (PX 0 a) 0).mem r (a + PGSIZE + i * PGSIZE) =
              leafAt vm1.mem r (a + PGSIZE + i * PGSIZE) := by
            intro i hi
            have := Nat.mul_lt_mul_of_pos_right hi hP
            rw [leafAt_writeLeaf hinj ha hamax hlow 0 (by rw [Nat.add_mod, ha']; simp [PGSIZE])
              (by omega), if_neg (by omega)]
          have hpages' := mappedPages_congr hsame
          rw [hm1] at hpages'
          obtain ⟨vm', hrun, hnodes, hmap, hcalls, hkmem⟩ := ih (a + PGSIZE) _
            (hinj.of_nodes fun _ hn => tablePage_writeLeaf hinj hlow 0 hn) ha' hmax'
            (fun hd p hp => hfree hd p (by rw [hpages]; exact .tail _ (hpages' ▸ hp)))
          refine ⟨vm', hrun, fun t ht => ?_, fun v => ?_, by rw [hcalls, hpages']; rfl, hkmem⟩
          · rw [hnodes t ht, tablePage_writeLeaf hinj hlow 0 ht, hm1]
          · rw [hmap v, ← hm1]
            refine unmap_range_succ ha (fun v hv => vmap_of_not_aligned _ r hv) ?_ (fun v hva => ?_) v
            · rw [vmap_writeLeaf hinj ha hamax hlow 0 a, if_pos rfl, if_neg not_valid_zero]
            · rw [vmap_writeLeaf hinj ha hamax hlow 0 v, if_neg hva]
        cases doFree with
        | false =>
          obtain ⟨vm', hrun, hnodes, hmap, hcalls, hkmem⟩ := hclear vm rfl
          exact ⟨vm', hrun, hnodes, hmap, by simpa using hcalls, hkmem⟩
        | true =>
          -- the page goes to `kfree` first
          obtain ⟨k, hk⟩ := kfree_isSome vm.kmem
            (hfree rfl (PTE2PA (vm.mem l (PX 0 a))) (by rw [hpages]; exact List.mem_cons_self))
          have hkf : vm.kfree «end» (PTE2PA (vm.mem l (PX 0 a))) = .ok
              { vm with kmem := k, calls := vm.calls ++ [.kfree (PTE2PA (vm.mem l (PX 0 a)))] } := by
            simp [Vm.kfree, hk]
          rw [if_pos rfl, hkf, Loop.ok_bind]
          obtain ⟨vm', hrun, hnodes, hmap, hcalls, -⟩ := hclear
            { vm with kmem := k, calls := vm.calls ++ [.kfree (PTE2PA (vm.mem l (PX 0 a)))] } rfl
          refine ⟨vm', hrun, hnodes, hmap, ?_, fun h => absurd h (by decide)⟩
          rw [hcalls, hpages]
          simp
      · rw [if_pos (show vm.mem l (PX 0 a) &&& PTE_V = 0 by simpa [Valid] using hv)]
        exact hskip (by simp [leafAt, leafPte, hlow, hv])

/-- `uvmunmap(pagetable, va, npages, do_free)` at an aligned `va`, below `MAXVA`: the mappings
of `[va, va + npages * PGSIZE)` go, skipping addresses with none, and no other mapping moves;
with `do_free` each page they mapped goes to `kfree`, in address order. -/
theorem NodesInj.uvmunmap {vm : Vm} (hinj : NodesInj vm.mem r) (doFree : Bool) {va n : Nat}
    (hva : va % PGSIZE = 0) (hmax : va + n * PGSIZE ≤ MAXVA)
    (hfree : doFree = true → ∀ p ∈ mappedPages vm.mem r va n, Managed «end» p) :
    ∃ vm', Xv6.uvmunmap «end» r va n doFree vm = .ok vm' ∧
      (∀ t, t.isNode = true → tablePage vm'.mem r t = tablePage vm.mem r t) ∧
      (∀ v, vmap vm'.mem r v = if va ≤ v ∧ v < va + n * PGSIZE then none else vmap vm.mem r v) ∧
      vm'.calls = vm.calls ++
        (if doFree then (mappedPages vm.mem r va n).map KEvent.kfree else []) ∧
      (doFree = false → vm'.kmem = vm.kmem) := by
  rw [Xv6.uvmunmap, if_neg (by omega)]
  exact NodesInj.uvmunmapLoop doFree n va vm hinj hva hmax hfree

end Unmap

/-! ## The tree implements a finite map -/

end Xv6
