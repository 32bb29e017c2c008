import Xv6.Trap
import Xv6.Proofs.Sbrk

/-!
# Page faults in user space

`vmfault(pagetable, va, read)` maps a fresh zeroed page at `PGROUNDDOWN(va)` exactly when `va`
is below `p->sz`, nothing is mapped there and memory does not run out (`UserMem.vmfault`). It
compares `va` itself with `p->sz` before rounding it down, and `ismapped` sees any valid leaf,
so that a guard page without `PTE_U` and a read-only page both count as mapped. `usertrap` then
goes back to user space, and otherwise kills the process (`usertrap_fault`).
-/

namespace Xv6

theorem PGROUNDDOWN_mod (va : Nat) : PGROUNDDOWN va % PGSIZE = 0 := Nat.mul_mod_left _ _

theorem PGROUNDDOWN_le (va : Nat) : PGROUNDDOWN va ≤ va := Nat.div_mul_le_self _ _

/-- `ismapped(pagetable, va)` below `MAXVA`: whether `va` has a leaf. -/
theorem ismapped_eq {r va : Nat} (vm : Vm) (hva : va < MAXVA) :
    ismapped r va vm = .ok (leafAt vm.mem r va).isSome := by
  rw [ismapped, walk_false vm hva, Loop.ok_bind]
  cases hl : lowPage vm.mem r (PX 2 va) (PX 1 va) with
  | none => simp [leafAt, leafPte, hl]
  | some l =>
    by_cases hv : Valid (vm.mem l (PX 0 va))
    · simp only [Valid] at hv
      simp [leafAt, leafPte, hl, Valid, hv]
    · simp only [Valid, not_not] at hv
      simp [leafAt, leafPte, hl, Valid, hv]

section Fault

variable {ι : Type} [DecidableEq ι] {«end» : Nat} {k0 : Kmem} {vm : Vm} {sp : ι → Space}
  {x : ι} {p : Proc}

variable (hend : KERNBASE ≤ «end»)
include hend

/-- `vmfault(p->pagetable, va, read)` by a process whose memory keeps `UserMem`, at any `va`: it
cannot panic and keeps the invariant. It maps a page that was free, zeroed, at
`PGROUNDDOWN(va)` with `PTE_W | PTE_U | PTE_R` and returns it, no other leaf moving; or returns
`0`, no leaf moving and every page taken given back but page-table pages, because `va` is not
below `p->sz`, or a leaf is there, or memory ran out. -/
theorem UserMem.vmfault (hp : UserMem «end» k0 vm sp x p) (va : Nat) :
    ∃ mem vm', Xv6.vmfault «end» p.sz p.pagetable p.pagetable va vm = .ok (mem, vm') ∧
      UserMem «end» k0 vm' sp x p ∧ HeldKept «end» vm vm' sp ∧
      ((mem ≠ 0 ∧ va < p.sz ∧ leafAt vm.mem p.pagetable (PGROUNDDOWN va) = none ∧
          mem ∈ vm.kmem.freelist ∧ vm'.mem mem = (fun _ => 0) ∧
          leafAt vm'.mem p.pagetable (PGROUNDDOWN va) =
            some (PA2PTE mem ||| (PTE_W ||| PTE_U ||| PTE_R) ||| PTE_V) ∧
          LeavesOut vm vm' sp x (· = PGROUNDDOWN va) ∧
          Grew vm vm' sp x (· = .leaf (PX 2 (PGROUNDDOWN va)) (PX 1 (PGROUNDDOWN va))
            (PX 0 (PGROUNDDOWN va)))) ∨
        (mem = 0 ∧ LeavesOut vm vm' sp x (fun _ => False) ∧ GaveBack vm vm' sp x ∧
          (p.sz ≤ va ∨ (leafAt vm.mem p.pagetable (PGROUNDDOWN va)).isSome ∨
            RanOut vm vm'))) := by
  have hT : TRAPFRAME < MAXVA := by decide
  have hkeep : ∀ vm' : Vm, GaveBack vm' vm' sp x := fun _ =>
    (Released.of_pageAt x rfl rfl).gaveBack
  by_cases hsz : p.sz ≤ va
  · refine ⟨0, vm, by simp [Xv6.vmfault, hsz], hp, HeldKept.refl vm sp,
      .inr ⟨rfl, (LeavesKept.refl vm sp).out x _, hkeep vm, .inl hsz⟩⟩
  have ha := PGROUNDDOWN_mod va
  have hatf : PGROUNDDOWN va < TRAPFRAME := by
    have := PGROUNDDOWN_le va
    have := hp.sz_le
    omega
  have hmapped := ismapped_eq (r := p.pagetable) vm (lt_trans hatf hT)
  by_cases hm : (leafAt vm.mem p.pagetable (PGROUNDDOWN va)).isSome
  · refine ⟨0, vm, by simp [Xv6.vmfault, hsz, hmapped, hm], hp, HeldKept.refl vm sp,
      .inr ⟨rfl, (LeavesKept.refl vm sp).out x _, hkeep vm, .inr (.inl hm)⟩⟩
  have hnone : leafAt vm.mem p.pagetable (PGROUNDDOWN va) = none :=
    Option.not_isSome_iff_eq_none.mp hm
  obtain ⟨h1, hk1, -⟩ := hp.inv.kalloc hend
  by_cases hz : vm.kalloc.2 = 0
  · -- no page for the fault
    have hrun : Xv6.vmfault «end» p.sz p.pagetable p.pagetable va vm = .ok (0, vm.kalloc.1) := by
      simp [Xv6.vmfault, hsz, hmapped, hm, hz]
    have hran : RanOut vm vm.kalloc.1 :=
      ⟨[.kalloc vm.kalloc.2], rfl, by rw [hz]; exact List.mem_singleton_self _⟩
    refine ⟨0, vm.kalloc.1, hrun, ⟨h1, hp.root, hp.sz_le, hp.below⟩, hk1,
      .inr ⟨rfl, fun y r hy i j k _ _ _ _ => by rw [Vm.kalloc_mem], ?_, .inr (.inr hran)⟩⟩
    exact (hp.inv.grew_kalloc_zero hend hz (S := fun _ => False)).gaveBack (hkeep _)
      fun _ h => h.elim
  obtain ⟨hfree, res, vm2, hmap, hcase⟩ :=
    hp.inv.mapFresh hend hp.root ha hatf (show PTE_W ||| PTE_U ||| PTE_R < 1024 by decide) hnone hz
  rcases hcase with ⟨rfl, h2, hk2, hleaf2, -, hzero2, hout, hgrew, -⟩ |
    ⟨rfl, vm3, hfree3, h3, hk3, hout3, hgrew3, hran3⟩
  · -- the page is mapped
    have hrun : Xv6.vmfault «end» p.sz p.pagetable p.pagetable va vm =
        .ok (vm.kalloc.2, vm2) := by
      simp [Xv6.vmfault, hsz, hmapped, hm, hz, hmap]
    have hb2 : LeavesBelow vm2.mem p.pagetable (PGROUNDUP p.sz) :=
      hp.below.of_out hout hp.root le_rfl fun v _ hv => by
        subst hv
        have := le_PGROUNDUP p.sz
        have := PGROUNDDOWN_le va
        exact ⟨lt_trans hatf hT, fun _ => .inr (.inr (by omega))⟩
    exact ⟨vm.kalloc.2, vm2, hrun, ⟨h2, hp.root, hp.sz_le, hb2⟩, hk2,
      .inl ⟨hz, by omega, hnone, hfree, hzero2, hleaf2, hout, hgrew⟩⟩
  · -- `mappages` ran out of memory and the page went back
    have hrun : Xv6.vmfault «end» p.sz p.pagetable p.pagetable va vm = .ok (0, vm3) := by
      simp [Xv6.vmfault, hsz, hmapped, hm, hz, hmap, hfree3]
    exact ⟨0, vm3, hrun, ⟨h3, hp.root, hp.sz_le, hp.below.of_out hout3 hp.root le_rfl
      fun _ _ hv => hv.elim⟩, hk3,
      .inr ⟨rfl, hout3, hgrew3.gaveBack (hkeep _) fun _ h => h.elim, .inr (.inr hran3)⟩⟩

/-- `usertrap()` on a load or store page fault at any `va`, by a process with no kill pending
whose memory keeps `UserMem`: it goes back to user space exactly when `va` is below `p->sz`,
nothing is mapped at `PGROUNDDOWN(va)` and memory does not run out, and then that page alone is
newly mapped, to a page that was free and is zeroed, with `PTE_W | PTE_U | PTE_R`. Otherwise
the process is marked killed and the trap ends in `kexit(-1)`, no leaf having moved. -/
theorem usertrap_fault (hp : UserMem «end» k0 vm sp x p) (hkill : p.killed = 0) {scause : Nat}
    (hcause : scause = 13 ∨ scause = 15) (va : Nat) :
    ∃ e q vm', usertrapException «end» p scause va vm = .ok (e, q, vm') ∧
      UserMem «end» k0 vm' sp x q ∧ HeldKept «end» vm vm' sp ∧
      ((e = .user ∧ q = p ∧ va < p.sz ∧ leafAt vm.mem p.pagetable (PGROUNDDOWN va) = none ∧
          (∃ pa, pa ∈ vm.kmem.freelist ∧ vm'.mem pa = (fun _ => 0) ∧
            leafAt vm'.mem p.pagetable (PGROUNDDOWN va) =
              some (PA2PTE pa ||| (PTE_W ||| PTE_U ||| PTE_R) ||| PTE_V)) ∧
          LeavesOut vm vm' sp x (· = PGROUNDDOWN va) ∧
          Grew vm vm' sp x (· = .leaf (PX 2 (PGROUNDDOWN va)) (PX 1 (PGROUNDDOWN va))
            (PX 0 (PGROUNDDOWN va)))) ∨
        (e = .exit (-1) ∧ q = { p with killed := 1 } ∧
          LeavesOut vm vm' sp x (fun _ => False) ∧ GaveBack vm vm' sp x ∧
          (p.sz ≤ va ∨ (leafAt vm.mem p.pagetable (PGROUNDDOWN va)).isSome ∨
            RanOut vm vm'))) := by
  obtain ⟨mem, vm', hrun, hp', hk, hcase⟩ := hp.vmfault hend va
  have htrap : usertrapException «end» p scause va vm =
      if mem ≠ 0 then .ok (.user, p, vm') else .ok (.exit (-1), { p with killed := 1 }, vm') := by
    simp only [usertrapException, if_pos hcause.symm, hrun, Loop.ok_bind]
    by_cases hmem : mem = 0
    · simp [hmem]
    · simp [hmem, hkill]
  rcases hcase with ⟨hmem, hlt, hnone, hfree, hzero, hleaf, hout, hgrew⟩ |
    ⟨rfl, hout, hgave, hwhy⟩
  · rw [if_pos hmem] at htrap
    exact ⟨.user, p, vm', htrap, hp', hk,
      .inl ⟨rfl, rfl, hlt, hnone, ⟨mem, hfree, hzero, hleaf⟩, hout, hgrew⟩⟩
  · rw [if_neg (not_not.mpr rfl)] at htrap
    exact ⟨.exit (-1), { p with killed := 1 }, vm', htrap,
      ⟨hp'.inv, hp'.root, hp'.sz_le, hp'.below⟩, hk, .inr ⟨rfl, rfl, hout, hgave, hwhy⟩⟩

end Fault

/-- A load page fault at address `0` of a process that grew by a page lazily, with its fresh
page table the first page `kalloc` gave out after `kinit`. -/
theorem usertrap_fault_lazy_page :
    let k0 := (kinit 0x80021000).getD Kmem.boot
    let pt := Xv6.uvmcreate ⟨k0, fun _ _ => 0, []⟩
    let sp := Space.setRoot (fun _ : Unit => ⟨none, none⟩) () pt.1
    let p : Proc := { Proc.zero with pagetable := pt.1, sz := PGSIZE }
    KERNBASE ≤ 0x80021000 ∧ UserMem 0x80021000 k0 pt.2 sp () p ∧ p.killed = 0 ∧
      (13 = 13 ∨ 13 = 15) ∧
      ∃ e q vm', usertrapException 0x80021000 p 13 0 pt.2 = .ok (e, q, vm') ∧
        UserMem 0x80021000 k0 vm' sp () q ∧ HeldKept 0x80021000 pt.2 vm' sp ∧
        ((e = .user ∧ q = p ∧ 0 < p.sz ∧
            leafAt pt.2.mem p.pagetable (PGROUNDDOWN 0) = none ∧
            (∃ pa, pa ∈ pt.2.kmem.freelist ∧ vm'.mem pa = (fun _ => 0) ∧
              leafAt vm'.mem p.pagetable (PGROUNDDOWN 0) =
                some (PA2PTE pa ||| (PTE_W ||| PTE_U ||| PTE_R) ||| PTE_V)) ∧
            LeavesOut pt.2 vm' sp () (· = PGROUNDDOWN 0) ∧
            Grew pt.2 vm' sp () (· = .leaf (PX 2 (PGROUNDDOWN 0)) (PX 1 (PGROUNDDOWN 0))
              (PX 0 (PGROUNDDOWN 0)))) ∨
          (e = .exit (-1) ∧ q = { p with killed := 1 } ∧
            LeavesOut pt.2 vm' sp () (fun _ => False) ∧ GaveBack pt.2 vm' sp () ∧
            (p.sz ≤ 0 ∨ (leafAt pt.2.mem p.pagetable (PGROUNDDOWN 0)).isSome ∨
              RanOut pt.2 vm'))) :=
  have hend : KERNBASE ≤ 0x80021000 := by decide
  have hsz : PGSIZE ≤ TRAPFRAME := by decide
  ⟨hend, userMem_first_table hsz, rfl, .inl rfl,
    usertrap_fault hend (userMem_first_table hsz) rfl (.inl rfl) 0⟩

end Xv6
