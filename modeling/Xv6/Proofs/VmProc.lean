import Xv6.Proofs.VmFree

/-!
# A process's page table

`uvmcreate` and `proc_pagetable` make a fresh tree and give it to a holder that had none;
`proc_pagetable`'s failure paths free it again with `uvmfree` and `uvmunmap`. The new tree maps
only the trampoline and the trapframe, which lie at and above `TRAPFRAME` and so are owned by no
position of the tree.
-/

namespace Xv6

section Roots

variable {ι : Type} [DecidableEq ι]

/-- The holders with `pt` as the root of `x`'s tree. -/
def Space.setRoot (sp : ι → Space) (x : ι) (pt : Nat) : ι → Space :=
  Function.update sp x { sp x with root := some pt }

theorem Space.dropRoot_setRoot {sp : ι → Space} {x : ι} (hx : (sp x).root = none) (pt : Nat) :
    Space.dropRoot (Space.setRoot sp x pt) x = sp := by
  funext y
  by_cases hy : y = x
  · subst hy
    have : { sp y with root := none } = sp y := by
      cases h : sp y
      simp_all
    simp [Space.dropRoot, Space.setRoot, this]
  · simp [Space.dropRoot, Space.setRoot, hy]

/-- A root with no valid entry has no page below it. -/
theorem tablePage_fresh {mem : Nat → Nat → Nat} {pt : Nat} (hzero : ∀ i, ¬ Valid (mem pt i))
    {n : TPos} (hn : n ≠ .root) : tablePage mem pt n = none := by
  have hmid : ∀ i, midPage mem pt i = none := fun i => child_eq_none.mpr (hzero i)
  cases n with
  | root => exact absurd rfl hn
  | mid i => simp [tablePage, hmid]
  | low i j => simp [tablePage, lowPage, hmid]
  | leaf i j k => simp [tablePage, leafPte, lowPage, hmid]

theorem leafPte_fresh {mem : Nat → Nat → Nat} {pt : Nat} (hzero : ∀ i, ¬ Valid (mem pt i))
    (i j k : Nat) : leafPte mem pt i j k = none := by
  simp [leafPte, lowPage, midPage, child_eq_none.mpr (hzero i)]

theorem pageAt_setRoot {mem : Nat → Nat → Nat} {sp : ι → Space} {x : ι} (hx : (sp x).root = none)
    {pt : Nat} (hzero : ∀ i, ¬ Valid (mem pt i)) :
    pageAt mem (Space.setRoot sp x pt) = Function.update (pageAt mem sp) (.tbl x .root) (some pt) := by
  funext P
  cases P with
  | tf y =>
    by_cases hy : y = x
    · subst hy
      simp [pageAt, Space.setRoot]
    · simp [pageAt, Space.setRoot, hy]
  | tbl y n =>
    by_cases hy : y = x
    · subst hy
      by_cases hn : n = .root
      · subst hn
        simp [pageAt, Space.setRoot, tablePage]
      · have hne : Pos.tbl y n ≠ .tbl y .root := fun e => hn (by cases e; rfl)
        simp [pageAt, Space.setRoot, hx, Function.update_of_ne hne, tablePage_fresh hzero hn]
    · simp [pageAt, Space.setRoot, hy]

variable {«end» : Nat} {k0 : Kmem} {vm : Vm} {sp : ι → Space}

/-- A held page with no valid entry becomes the root of a holder that had no tree. -/
theorem VmInv.adoptRoot (h : VmInv «end» k0 vm sp) {x : ι} (hx : (sp x).root = none) {pt : Nat}
    (hpt : HeldPage «end» vm sp pt) (hzero : ∀ i, ¬ Valid (vm.mem pt i)) :
    VmInv «end» k0 vm (Space.setRoot sp x pt) ∧
      ∀ b, b ≠ pt → HeldPage «end» vm sp b → HeldPage «end» vm (Space.setRoot sp x pt) b := by
  refine h.give hpt (pageAt_setRoot hx hzero) rfl rfl fun y r hy => ?_
  by_cases hyx : y = x
  · subst hyx
    simp only [Space.setRoot, Function.update_self, Option.some.injEq] at hy
    subst hy
    exact ⟨fun i _ hv => absurd hv (hzero i), fun i _ m hm => absurd hm
      (by rw [midPage, child_eq_none.mpr (hzero i)]; simp)⟩
  · exact h.interior y r (by simpa [Space.setRoot, hyx] using hy)

variable (hend : KERNBASE ≤ «end»)
include hend

/-- `uvmcreate()` for a holder without a tree: `0`, or a fresh root the holder now has. -/
theorem VmInv.uvmcreate (h : VmInv «end» k0 vm sp) {x : ι} (hx : (sp x).root = none) :
    ∃ pt vm', Xv6.uvmcreate vm = (pt, vm') ∧
      (∀ y r', (sp y).root = some r' → ∀ i j k, i < 512 → j < 512 →
        leafPte vm'.mem r' i j k = leafPte vm.mem r' i j k) ∧
      ((pt = 0 ∧ VmInv «end» k0 vm' sp ∧ HeldKept «end» vm vm' sp) ∨
        (pt ≠ 0 ∧ VmInv «end» k0 vm' (Space.setRoot sp x pt) ∧ (∀ i, ¬ Valid (vm'.mem pt i)) ∧
          ∀ b, HeldPage «end» vm sp b → HeldPage «end» vm' (Space.setRoot sp x pt) b)) := by
  obtain ⟨h1, hk1, hpg⟩ := h.kalloc hend
  simp only [Xv6.uvmcreate]
  by_cases hz : vm.kalloc.2 = 0
  · rw [if_pos hz]
    refine ⟨0, vm.kalloc.1, rfl, fun y r' _ i j k _ _ => by rw [Vm.kalloc_mem], .inl ⟨rfl, h1, hk1⟩⟩
  · rw [if_neg hz]
    obtain ⟨hheld, hfree⟩ := hpg hz
    have hZ := fun y r' (hy : (sp y).root = some r') => zero_agree hheld.held.not_owned hy
    have hpage : pageAt (vm.kalloc.1.zero vm.kalloc.2).mem sp = pageAt vm.kalloc.1.mem sp :=
      pageAt_congr fun y r' hy => tablePage_congr (hZ y r' hy)
    obtain ⟨h2, hk2⟩ := h1.of_pageAt hpage rfl rfl
      fun y r' hy => (h1.interior y r' hy).congr (hZ y r' hy)
    have hzero : ∀ i, ¬ Valid ((vm.kalloc.1.zero vm.kalloc.2).mem vm.kalloc.2 i) := by
      intro i
      simp [Vm.zero_mem, not_valid_zero]
    obtain ⟨h3, hk3⟩ := h2.adoptRoot hx (hk2 _ hheld) hzero
    refine ⟨_, _, rfl, fun y r' hy i j k hi hj => ?_, .inr ⟨hz, h3, hzero, fun b hb => ?_⟩⟩
    · rw [leafPte_congr_nodes (hZ y r' hy) hi hj, Vm.kalloc_mem]
    · refine hk3 b ?_ (hk2 b (hk1 b hb))
      rintro rfl
      exact hb.held.not_free hfree

end Roots

end Xv6
