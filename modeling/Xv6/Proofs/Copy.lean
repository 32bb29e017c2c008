import Xv6.Proofs.Fault

/-!
# `copyout` and `copyin` by a process in its own page table

`copyout(pagetable, dstva, src, len)` and `copyin(pagetable, dst, srcva, len)` go page by page
over the bytes `[va, va + len)`. A page that `walkaddr` does not give goes to `vmfault`, which
maps a fresh zeroed page there when the address is below `p->sz` and nothing is mapped there;
`copyout` then also wants the leaf writable. Run by the process `p` in its own page table, whose
memory keeps `UserMem`, neither can panic (`copyout`'s `*pte` included) and the invariant is
kept; the only leaves that move are missing ones below `p->sz`, which get pages that were free
(`FaultsIn`); and each returns `0` exactly when every page it overlaps is then mapped as a user
page, writable for `copyout`.
-/

namespace Xv6

/-- A leaf through which `walkaddr` gives a page: user-accessible, and not page `0`. -/
def UserPage (w : Nat) : Prop := w &&& PTE_U ≠ 0 ∧ PTE2PA w ≠ 0

instance (w : Nat) : Decidable (UserPage w) :=
  inferInstanceAs (Decidable (w &&& PTE_U ≠ 0 ∧ PTE2PA w ≠ 0))

/-- The page `v` holds some of the bytes `[a, a + len)`. -/
def Overlaps (a len v : Nat) : Prop := v % PGSIZE = 0 ∧ a < v + PGSIZE ∧ v < a + len ∧ 0 < len

instance (a len v : Nat) : Decidable (Overlaps a len v) :=
  inferInstanceAs (Decidable (v % PGSIZE = 0 ∧ a < v + PGSIZE ∧ v < a + len ∧ 0 < len))

/-! ## One round of the loops -/

/-- The bytes of one round, from `a` to the end of its page or of the copy. -/
theorem round_pos {a len : Nat} (hlen : len ≠ 0) :
    0 < min (PGSIZE - (a - PGROUNDDOWN a)) len := by
  unfold PGROUNDDOWN PGSIZE
  omega

/-- The pages of a copy: the page of its first byte, then those of the bytes after that
page. -/
theorem overlaps_round {a len v : Nat} (hlen : len ≠ 0) :
    Overlaps a len v ↔ v = PGROUNDDOWN a ∨
      Overlaps (PGROUNDDOWN a + PGSIZE) (len - min (PGSIZE - (a - PGROUNDDOWN a)) len) v := by
  unfold Overlaps PGROUNDDOWN PGSIZE
  constructor
  · rintro ⟨hv, hav, hva, -⟩
    -- a page after the first one starts where the first one ends, or after
    by_cases hne : v = a / 4096 * 4096
    · exact .inl hne
    · exact .inr ⟨hv, by omega, by omega, by omega⟩
  · rintro (rfl | ⟨hv, hlo, hva, hpos⟩)
    · omega
    · omega

theorem not_overlaps_zero (a v : Nat) : ¬Overlaps a 0 v := fun h => absurd h.2.2.2 (by omega)

/-- `walkaddr(pagetable, va)` gives the page of the leaf at `va` when that leaf is a user page,
and `0` otherwise. -/
theorem walkaddr_cases (r va : Nat) (vm : Vm) :
    (va < MAXVA ∧ ∃ w, leafAt vm.mem r va = some w ∧ UserPage w ∧
        walkaddr r va vm = .ok (PTE2PA w)) ∨
      (¬(va < MAXVA ∧ ∃ w, leafAt vm.mem r va = some w ∧ UserPage w) ∧
        walkaddr r va vm = .ok 0) := by
  by_cases hmax : MAXVA ≤ va
  · exact .inr ⟨fun h => absurd h.1 (by omega), by simp [walkaddr, hmax]⟩
  have hva : va < MAXVA := by omega
  have hwalk : walk r va false vm = _ := walk_false vm hva
  cases hl : lowPage vm.mem r (PX 2 va) (PX 1 va) with
  | none =>
    have hnone : leafAt vm.mem r va = none := by simp [leafAt, leafPte, hl]
    exact .inr ⟨by simp [hnone], by simp [walkaddr, hmax, hwalk, hl]⟩
  | some l =>
    -- the checks of `walkaddr`, in its order: `PTE_V`, then `PTE_U`
    by_cases hv : vm.mem l (PX 0 va) &&& PTE_V = 0
    · have hnone : leafAt vm.mem r va = none := by simp [leafAt, leafPte, hl, Valid, hv]
      exact .inr ⟨by simp [hnone], by simp [walkaddr, hmax, hwalk, hl, hv]⟩
    have hleaf : leafAt vm.mem r va = some (vm.mem l (PX 0 va)) := by
      simp [leafAt, leafPte, hl, Valid, hv]
    have hrun : walkaddr r va vm =
        .ok (if vm.mem l (PX 0 va) &&& PTE_U = 0 then 0 else PTE2PA (vm.mem l (PX 0 va))) := by
      simp [walkaddr, hmax, hwalk, hl, hv]
      split_ifs <;> rfl
    by_cases hu : vm.mem l (PX 0 va) &&& PTE_U = 0
    · exact .inr ⟨by simp [hleaf, UserPage, hu], by rw [hrun, if_pos hu]⟩
    by_cases hpa : PTE2PA (vm.mem l (PX 0 va)) = 0
    · exact .inr ⟨by simp [hleaf, UserPage, hpa], by rw [hrun, if_neg hu, hpa]⟩
    exact .inl ⟨hva, _, hleaf, ⟨hu, hpa⟩, by rw [hrun, if_neg hu]⟩

/-- Where there is a leaf, `walk(pagetable, va, 0)` gives its slot. -/
theorem walk_of_leafAt {r va w : Nat} {vm : Vm} (hva : va < MAXVA)
    (hw : leafAt vm.mem r va = some w) :
    ∃ l, walk r va false vm = .ok (some (l, PX 0 va), vm) ∧ vm.mem l (PX 0 va) = w := by
  rw [walk_false vm hva]
  cases hl : lowPage vm.mem r (PX 2 va) (PX 1 va) with
  | none => simp [leafAt, leafPte, hl] at hw
  | some l =>
    refine ⟨l, rfl, ?_⟩
    simp only [leafAt, leafPte, hl, Option.bind_some] at hw
    split_ifs at hw
    exact Option.some.inj hw

/-- A bind on a computation that is run only when `c` holds, and is `pure y` otherwise. -/
theorem ite_pure_bind {α β ε : Type} {c : Prop} [Decidable c] {x : Except ε α} {y a : α}
    (K : α → Except ε β) (h : (if c then x else pure y) = .ok a) :
    (if c then x >>= K else pure y >>= K) = K a := by
  by_cases hc : c
  · rw [if_pos hc] at h ⊢
    rw [h, Loop.ok_bind]
  · rw [if_neg hc] at h ⊢
    cases h
    rfl

/-- The flags of a leaf `PA2PTE(pa) | perm | PTE_V`. -/
theorem leaf_and {perm m : Nat} (pa : Nat) (hperm : perm < 1024) (hm : m < 1024) :
    (PA2PTE pa ||| perm ||| PTE_V) &&& m = (perm ||| PTE_V) &&& m := by
  rw [and_flag _ hm, Nat.or_assoc, PA2PTE_or_mod pa (or_PTE_V_lt hperm)]

/-! ## Faulting pages in -/

section Faults

variable {ι : Type} [DecidableEq ι] {«end» : Nat} {k0 : Kmem} {vm vm' : Vm} {sp : ι → Space}
  {x : ι} {r sz : Nat}

/-- Between `vm` and `vm'` the tree `r` of `x` gained leaves only where it had none, at addresses
below `sz`, each mapping a page that was free with `PTE_W | PTE_U | PTE_R`; no leaf of another
tree moved. -/
structure FaultsIn (vm vm' : Vm) (sp : ι → Space) (x : ι) (r sz : Nat) : Prop where
  others : LeavesOut vm vm' sp x fun _ => True
  fresh : ∀ i j k, i < 512 → j < 512 → k < 512 → leafPte vm'.mem r i j k ≠ leafPte vm.mem r i j k →
    vaOf i j k < sz ∧ leafPte vm.mem r i j k = none ∧ ∃ pa, pa ∈ vm.kmem.freelist ∧
      leafPte vm'.mem r i j k = some (PA2PTE pa ||| (PTE_W ||| PTE_U ||| PTE_R) ||| PTE_V)

omit [DecidableEq ι] in
theorem FaultsIn.refl (vm : Vm) (sp : ι → Space) (x : ι) (r sz : Nat) :
    FaultsIn vm vm sp x r sz :=
  ⟨(LeavesKept.refl vm sp).out x _, fun _ _ _ _ _ _ h => absurd rfl h⟩

omit [DecidableEq ι] in
/-- No leaf of any tree moved. -/
theorem FaultsIn.of_out (h : LeavesOut vm vm' sp x fun _ => False) (hx : (sp x).root = some r) :
    FaultsIn vm vm' sp x r sz :=
  ⟨h.mono fun _ h => h.elim, fun i j k hi hj hk hne =>
    absurd (h x r hx i j k hi hj hk fun _ h => h) hne⟩

omit [DecidableEq ι] in
theorem FaultsIn.trans {vm₁ vm₂ vm₃ : Vm} (h₁ : FaultsIn vm₁ vm₂ sp x r sz)
    (h₂ : FaultsIn vm₂ vm₃ sp x r sz)
    (hsub : ∀ b, b ∈ vm₂.kmem.freelist → b ∈ vm₁.kmem.freelist) :
    FaultsIn vm₁ vm₃ sp x r sz := by
  refine ⟨(h₁.others.trans h₂.others).mono fun _ _ => trivial, fun i j k hi hj hk hne => ?_⟩
  by_cases h12 : leafPte vm₂.mem r i j k = leafPte vm₁.mem r i j k
  · -- the leaf moved in the second change
    obtain ⟨hlt, hnone, pa, hpa, hleaf⟩ := h₂.fresh i j k hi hj hk (h12 ▸ hne)
    exact ⟨hlt, h12 ▸ hnone, pa, hsub pa hpa, hleaf⟩
  · -- the leaf moved in the first change, and then it was there for the second
    obtain ⟨hlt, hnone, pa, hpa, hleaf⟩ := h₁.fresh i j k hi hj hk h12
    by_cases h23 : leafPte vm₃.mem r i j k = leafPte vm₂.mem r i j k
    · exact ⟨hlt, hnone, pa, hpa, h23 ▸ hleaf⟩
    · obtain ⟨-, hnone2, -⟩ := h₂.fresh i j k hi hj hk h23
      rw [hleaf] at hnone2
      cases hnone2

omit [DecidableEq ι] in
/-- A leaf that was there did not move. -/
theorem FaultsIn.leafAt_of_isSome (h : FaultsIn vm vm' sp x r sz) {va : Nat}
    (hs : (leafAt vm.mem r va).isSome) : leafAt vm'.mem r va = leafAt vm.mem r va := by
  by_contra hne
  obtain ⟨-, hnone, -⟩ := h.fresh _ _ _ (PX_lt 2 va) (PX_lt 1 va) (PX_lt 0 va) hne
  have hnone' : leafAt vm.mem r va = none := hnone
  rw [hnone'] at hs
  cases hs

omit [DecidableEq ι] in
/-- One page `va` below `sz` that had no leaf got a page that was free. -/
theorem FaultsIn.of_fault {va pa : Nat} (hout : LeavesOut vm vm' sp x (· = va))
    (hx : (sp x).root = some r) (hlt : va < sz) (hnone : leafAt vm.mem r va = none)
    (hpa : pa ∈ vm.kmem.freelist)
    (hleaf : leafAt vm'.mem r va = some (PA2PTE pa ||| (PTE_W ||| PTE_U ||| PTE_R) ||| PTE_V)) :
    FaultsIn vm vm' sp x r sz := by
  refine ⟨hout.mono fun _ _ => trivial, fun i j k hi hj hk hne => ?_⟩
  -- only the leaf of `va` moved
  have hv : vaOf i j k = va := by
    by_contra hv
    exact hne (hout x r hx i j k hi hj hk fun _ => hv)
  rw [← leafAt_vaOf _ _ hi hj hk, ← leafAt_vaOf _ _ hi hj hk, hv]
  exact ⟨hv ▸ hlt, hnone, pa, hpa, hleaf⟩

variable {p : Proc}

variable (hend : KERNBASE ≤ «end»)
include hend

/-- The start of a round of `copyout` or `copyin` at the page `va` of the process's own page
table: `walkaddr`, then `vmfault` if it gave `0`. It cannot panic and keeps the invariant; it
faults in at most that page; and it gives a page exactly when `va` is then mapped as a user
page. -/
theorem UserMem.present (hp : UserMem «end» k0 vm sp x p) {va : Nat} (hva : va % PGSIZE = 0) :
    ∃ pa0 pa vm', walkaddr p.pagetable va vm = .ok pa0 ∧
      (if pa0 = 0 then Xv6.vmfault «end» p.sz p.pagetable p.pagetable va vm
        else pure (pa0, vm)) = .ok (pa, vm') ∧
      UserMem «end» k0 vm' sp x p ∧ FaultsIn vm vm' sp x p.pagetable p.sz ∧
      (pa ≠ 0 → ∀ b, b ∈ vm'.kmem.freelist → b ∈ vm.kmem.freelist) ∧
      (pa ≠ 0 ↔ va < MAXVA ∧ ∃ w, leafAt vm'.mem p.pagetable va = some w ∧ UserPage w) := by
  rcases walkaddr_cases p.pagetable va vm with ⟨hmax, w, hw, huser, hwa⟩ | ⟨hnot, hwa⟩
  · -- a user page was there
    refine ⟨_, _, vm, hwa, by rw [if_neg huser.2]; rfl, hp, FaultsIn.refl vm sp x _ _,
      fun _ b hb => hb, ?_⟩
    exact ⟨fun _ => ⟨hmax, w, hw, huser⟩, fun _ => huser.2⟩
  obtain ⟨mem, vm', hvf, hp', -, hcase⟩ := hp.vmfault hend va
  rw [PGROUNDDOWN_of_mod hva] at hcase
  refine ⟨0, mem, vm', hwa, by rw [if_pos rfl]; exact hvf, hp', ?_⟩
  rcases hcase with ⟨hmem, hlt, hnone, hfree, -, hleaf, hout, hgrew⟩ | ⟨rfl, hout, -, -⟩
  · -- `vmfault` mapped a fresh page there
    have hmax : va < MAXVA := lt_of_lt_of_le hlt (le_trans hp.sz_le (by decide))
    have hpa : PTE2PA (PA2PTE mem ||| (PTE_W ||| PTE_U ||| PTE_R) ||| PTE_V) = mem :=
      (leaf_pte (hp.inv.kmem.free_managed mem hfree).1 (by decide)).2
    have hu : (PA2PTE mem ||| (PTE_W ||| PTE_U ||| PTE_R) ||| PTE_V) &&& PTE_U ≠ 0 := by
      rw [leaf_and mem (by decide) (by decide)]
      decide
    refine ⟨FaultsIn.of_fault hout hp.root hlt hnone hfree hleaf, fun _ => hgrew.sub,
      fun _ => ⟨hmax, _, hleaf, hu, by rw [hpa]; exact hmem⟩, fun _ => hmem⟩
  · -- `vmfault` gave up, and no leaf moved
    refine ⟨FaultsIn.of_out hout hp.root, fun h => absurd rfl h, ?_⟩
    refine ⟨fun h => absurd rfl h, fun ⟨hmax, hw⟩ => (hnot ⟨hmax, ?_⟩).elim⟩
    rwa [← hout.leafAt hp.root hva hmax fun h => h]

/-- The loop of `copyin`, with a round left for each byte: it cannot panic and keeps the
invariant, it faults in missing pages below `p->sz` only, and it returns `0` exactly when every
page of `[srcva, srcva + len)` is then a user page. -/
theorem UserMem.copyinLoop (hp : UserMem «end» k0 vm sp x p) (fuel srcva len : Nat)
    (hfuel : len ≤ fuel) :
    ∃ r vm', Xv6.copyinLoop «end» p.sz p.pagetable p.pagetable fuel srcva len vm = .ok (r, vm') ∧
      UserMem «end» k0 vm' sp x p ∧ FaultsIn vm vm' sp x p.pagetable p.sz ∧ (r = 0 ∨ r = -1) ∧
      (r = 0 ↔ ∀ v, Overlaps srcva len v →
        v < MAXVA ∧ ∃ w, leafAt vm'.mem p.pagetable v = some w ∧ UserPage w) := by
  induction fuel generalizing srcva len vm with
  | zero =>
    have hlen : len = 0 := by omega
    subst hlen
    exact ⟨0, vm, rfl, hp, FaultsIn.refl vm sp x _ _, .inl rfl,
      fun _ v hv => absurd hv (not_overlaps_zero srcva v), fun _ => rfl⟩
  | succ fuel ih =>
    by_cases hlen : len = 0
    · subst hlen
      exact ⟨0, vm, by simp [Xv6.copyinLoop], hp, FaultsIn.refl vm sp x _ _, .inl rfl,
        fun _ v hv => absurd hv (not_overlaps_zero srcva v), fun _ => rfl⟩
    obtain ⟨pa0, pa, vm1, hwa, hif, hp1, hf1, hsub1, hpa1⟩ :=
      hp.present hend (PGROUNDDOWN_mod srcva)
    have hrun : Xv6.copyinLoop «end» p.sz p.pagetable p.pagetable (fuel + 1) srcva len vm =
        if pa = 0 then .ok (-1, vm1) else
          Xv6.copyinLoop «end» p.sz p.pagetable p.pagetable fuel (PGROUNDDOWN srcva + PGSIZE)
            (len - min (PGSIZE - (srcva - PGROUNDDOWN srcva)) len) vm1 := by
      rw [Xv6.copyinLoop, if_neg hlen]
      simp only [hwa, Loop.ok_bind]
      -- `vmfault` only when `walkaddr` gave `0`
      by_cases h0 : pa0 = 0
      · rw [if_pos h0] at hif
        rw [if_pos h0, hif, Loop.ok_bind]
        rfl
      · rw [if_neg h0] at hif
        cases hif
        rw [if_neg h0, Loop.pure_eq_ok, Loop.ok_bind]
        rfl
    by_cases hpa : pa = 0
    · -- the first page is not a user page: `-1`
      refine ⟨-1, vm1, by rw [hrun, if_pos hpa], hp1, hf1, .inr rfl,
        fun h => absurd h (by decide), fun hall => absurd (hpa1.mpr ?_) (not_not.mpr hpa)⟩
      exact hall _ ((overlaps_round hlen).mpr (.inl rfl))
    -- the first page is a user page, and the rest of the copy goes on from the next one
    have hround := round_pos (a := srcva) hlen
    obtain ⟨r, vm', hloop, hp', hf', hr, hiff⟩ := ih hp1 (PGROUNDDOWN srcva + PGSIZE)
      (len - min (PGSIZE - (srcva - PGROUNDDOWN srcva)) len) (by omega)
    obtain ⟨hmax, w, hw, huser⟩ := hpa1.mp hpa
    refine ⟨r, vm', by rw [hrun, if_neg hpa]; exact hloop, hp', hf1.trans hf' (hsub1 hpa), hr, ?_⟩
    rw [hiff]
    constructor
    · intro hall v hv
      rcases (overlaps_round hlen).mp hv with rfl | hv'
      · -- the first page kept its leaf
        refine ⟨hmax, w, ?_, huser⟩
        rw [hf'.leafAt_of_isSome (by simp [hw]), hw]
      · exact hall v hv'
    · exact fun hall v hv => hall v ((overlaps_round hlen).mpr (.inr hv))

theorem UserMem.copyoutLoop (hp : UserMem «end» k0 vm sp x p) (fuel dstva len : Nat)
    (hfuel : len ≤ fuel) :
    ∃ r vm', Xv6.copyoutLoop «end» p.sz p.pagetable p.pagetable fuel dstva len vm =
        .ok (r, vm') ∧
      UserMem «end» k0 vm' sp x p ∧ FaultsIn vm vm' sp x p.pagetable p.sz ∧ (r = 0 ∨ r = -1) ∧
      (r = 0 ↔ ∀ v, Overlaps dstva len v → v < MAXVA ∧
        ∃ w, leafAt vm'.mem p.pagetable v = some w ∧ UserPage w ∧ w &&& PTE_W ≠ 0) := by
  induction fuel generalizing dstva len vm with
  | zero =>
    have hlen : len = 0 := by omega
    subst hlen
    exact ⟨0, vm, rfl, hp, FaultsIn.refl vm sp x _ _, .inl rfl,
      fun _ v hv => absurd hv (not_overlaps_zero dstva v), fun _ => rfl⟩
  | succ fuel ih =>
    by_cases hlen : len = 0
    · subst hlen
      exact ⟨0, vm, by simp [Xv6.copyoutLoop], hp, FaultsIn.refl vm sp x _ _, .inl rfl,
        fun _ v hv => absurd hv (not_overlaps_zero dstva v), fun _ => rfl⟩
    have hfirst : Overlaps dstva len (PGROUNDDOWN dstva) := (overlaps_round hlen).mpr (.inl rfl)
    by_cases hmax : MAXVA ≤ PGROUNDDOWN dstva
    · -- the first page is at or above `MAXVA`: `-1`
      refine ⟨-1, vm, by simp [Xv6.copyoutLoop, hlen, hmax], hp, FaultsIn.refl vm sp x _ _,
        .inr rfl, fun h => absurd h (by decide), fun hall => absurd (hall _ hfirst).1 (by omega)⟩
    obtain ⟨pa0, pa, vm1, hwa, hif, hp1, hf1, hsub1, hpa1⟩ :=
      hp.present hend (PGROUNDDOWN_mod dstva)
    by_cases hpa : pa = 0
    · -- the first page is not a user page: `-1`
      have hrun : Xv6.copyoutLoop «end» p.sz p.pagetable p.pagetable (fuel + 1) dstva len vm =
          .ok (-1, vm1) := by
        rw [Xv6.copyoutLoop, if_neg hlen]
        simp only [if_neg hmax, hwa, Loop.ok_bind]
        rw [ite_pure_bind _ hif]
        exact if_pos hpa
      refine ⟨-1, vm1, hrun, hp1, hf1, .inr rfl, fun h => absurd h (by decide), fun hall => ?_⟩
      obtain ⟨hm, w, hw, huser, -⟩ := hall _ hfirst
      exact absurd (hpa1.mpr ⟨hm, w, hw, huser⟩) (not_not.mpr hpa)
    -- a user page: `walk` finds its leaf, and `copyout` looks at `PTE_W`
    obtain ⟨hmaxlt, w, hw, huser⟩ := hpa1.mp hpa
    obtain ⟨l, hwalk, hl⟩ := walk_of_leafAt hmaxlt hw
    have hrun : Xv6.copyoutLoop «end» p.sz p.pagetable p.pagetable (fuel + 1) dstva len vm =
        if w &&& PTE_W = 0 then .ok (-1, vm1) else
          Xv6.copyoutLoop «end» p.sz p.pagetable p.pagetable fuel (PGROUNDDOWN dstva + PGSIZE)
            (len - min (PGSIZE - (dstva - PGROUNDDOWN dstva)) len) vm1 := by
      rw [Xv6.copyoutLoop, if_neg hlen]
      simp only [if_neg hmax, hwa, Loop.ok_bind]
      rw [ite_pure_bind _ hif]
      rw [if_neg hpa, hwalk, Loop.ok_bind]
      simp only [hl]
      rfl
    by_cases hW : w &&& PTE_W = 0
    · -- a read-only page: `-1`
      refine ⟨-1, vm1, by rw [hrun, if_pos hW], hp1, hf1, .inr rfl,
        fun h => absurd h (by decide), fun hall => ?_⟩
      obtain ⟨-, w', hw', -, hW'⟩ := hall _ hfirst
      rw [hw] at hw'
      cases hw'
      exact (hW' hW).elim
    have hround := round_pos (a := dstva) hlen
    obtain ⟨r, vm', hloop, hp', hf', hr, hiff⟩ := ih hp1 (PGROUNDDOWN dstva + PGSIZE)
      (len - min (PGSIZE - (dstva - PGROUNDDOWN dstva)) len) (by omega)
    refine ⟨r, vm', by rw [hrun, if_neg hW]; exact hloop, hp', hf1.trans hf' (hsub1 hpa), hr, ?_⟩
    rw [hiff]
    constructor
    · intro hall v hv
      rcases (overlaps_round hlen).mp hv with rfl | hv'
      · -- the first page kept its leaf
        refine ⟨hmaxlt, w, ?_, huser, hW⟩
        rw [hf'.leafAt_of_isSome (by simp [hw]), hw]
      · exact hall v hv'
    · exact fun hall v hv => hall v ((overlaps_round hlen).mpr (.inr hv))

/-- `copyout(p->pagetable, dstva, src, len)` by the process `p` whose memory keeps `UserMem`, at
any `dstva` and `len`: it cannot panic (not at `*pte` either) and keeps the invariant; the only
leaves that move are missing ones below `p->sz`, each now mapping a page that was free, writable
and user-accessible; it returns `0` or `-1`, and `0` exactly when every page of
`[dstva, dstva + len)` is then below `MAXVA` and mapped to a user page that is writable. -/
theorem copyout_user_pages (hp : UserMem «end» k0 vm sp x p) (dstva len : Nat) :
    ∃ r vm', copyout «end» p.sz p.pagetable p.pagetable dstva len vm = .ok (r, vm') ∧
      UserMem «end» k0 vm' sp x p ∧ FaultsIn vm vm' sp x p.pagetable p.sz ∧ (r = 0 ∨ r = -1) ∧
      (r = 0 ↔ ∀ v, Overlaps dstva len v → v < MAXVA ∧
        ∃ w, leafAt vm'.mem p.pagetable v = some w ∧ UserPage w ∧ w &&& PTE_W ≠ 0) :=
  -- a round for each byte is enough, since each round copies at least one
  hp.copyoutLoop hend len dstva len le_rfl

/-- `copyin(p->pagetable, dst, srcva, len)` by the process `p` whose memory keeps `UserMem`, at
any `srcva` and `len`: it cannot panic and keeps the invariant; the only leaves that move are
missing ones below `p->sz`, each now mapping a page that was free; it returns `0` or `-1`, and
`0` exactly when every page of `[srcva, srcva + len)` is then below `MAXVA` and mapped to a user
page. -/
theorem copyin_user_pages (hp : UserMem «end» k0 vm sp x p) (srcva len : Nat) :
    ∃ r vm', copyin «end» p.sz p.pagetable p.pagetable srcva len vm = .ok (r, vm') ∧
      UserMem «end» k0 vm' sp x p ∧ FaultsIn vm vm' sp x p.pagetable p.sz ∧ (r = 0 ∨ r = -1) ∧
      (r = 0 ↔ ∀ v, Overlaps srcva len v → v < MAXVA ∧
        ∃ w, leafAt vm'.mem p.pagetable v = some w ∧ UserPage w) :=
  hp.copyinLoop hend len srcva len le_rfl

end Faults

/-- A `copyout` of `8` bytes to address `0` by a one-page process whose page table was the first
page `kalloc` gave out after `kinit`, with nothing mapped yet. -/
theorem copyout_user_pages_first_table :
    let k0 := (kinit 0x80021000).getD Kmem.boot
    let pt := Xv6.uvmcreate ⟨k0, fun _ _ => 0, []⟩
    let sp := Space.setRoot (fun _ : Unit => ⟨none, none⟩) () pt.1
    let p : Proc := { Proc.zero with pagetable := pt.1, sz := PGSIZE }
    KERNBASE ≤ 0x80021000 ∧ UserMem 0x80021000 k0 pt.2 sp () p ∧
      ∃ r vm', copyout 0x80021000 p.sz p.pagetable p.pagetable 0 8 pt.2 = .ok (r, vm') ∧
        UserMem 0x80021000 k0 vm' sp () p ∧ FaultsIn pt.2 vm' sp () p.pagetable p.sz ∧
        (r = 0 ∨ r = -1) ∧
        (r = 0 ↔ ∀ v, Overlaps 0 8 v → v < MAXVA ∧
          ∃ w, leafAt vm'.mem p.pagetable v = some w ∧ UserPage w ∧ w &&& PTE_W ≠ 0) :=
  -- in term mode, so that the kernel never runs `kinit`
  have hend : KERNBASE ≤ 0x80021000 := by decide
  have hp := userMem_first_table (by decide : PGSIZE ≤ TRAPFRAME)
  ⟨hend, hp, copyout_user_pages hend hp 0 8⟩

/-- A `copyin` of `8` bytes from address `0` by the same process. -/
theorem copyin_user_pages_first_table :
    let k0 := (kinit 0x80021000).getD Kmem.boot
    let pt := Xv6.uvmcreate ⟨k0, fun _ _ => 0, []⟩
    let sp := Space.setRoot (fun _ : Unit => ⟨none, none⟩) () pt.1
    let p : Proc := { Proc.zero with pagetable := pt.1, sz := PGSIZE }
    KERNBASE ≤ 0x80021000 ∧ UserMem 0x80021000 k0 pt.2 sp () p ∧
      ∃ r vm', copyin 0x80021000 p.sz p.pagetable p.pagetable 0 8 pt.2 = .ok (r, vm') ∧
        UserMem 0x80021000 k0 vm' sp () p ∧ FaultsIn pt.2 vm' sp () p.pagetable p.sz ∧
        (r = 0 ∨ r = -1) ∧
        (r = 0 ↔ ∀ v, Overlaps 0 8 v → v < MAXVA ∧
          ∃ w, leafAt vm'.mem p.pagetable v = some w ∧ UserPage w) :=
  have hend : KERNBASE ≤ 0x80021000 := by decide
  have hp := userMem_first_table (by decide : PGSIZE ≤ TRAPFRAME)
  ⟨hend, hp, copyin_user_pages hend hp 0 8⟩

end Xv6
