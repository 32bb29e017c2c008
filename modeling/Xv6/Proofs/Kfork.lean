import Xv6.Proofs.Fork

/-!
# `allocproc`, `proc_pagetable`, `freeproc` and the memory of `kfork`

`kfork` by `p` claims an `UNUSED` slot `np`, which has no trapframe and no page table, and builds
the child's memory in steps: `allocproc` takes a trapframe page and makes a page table with
`proc_pagetable`, which maps the trampoline and the trapframe; then `uvmcopy` copies the
parent's pages. Each step can run out of memory, and each failure path frees what was built,
ending in `freeproc(np)`.

The child is a holder `y` of the ownership invariant that starts with nothing. Every step keeps
the pool of `y` (`Pool`: the free pages, the pages of `y` and the pages the call holds), so a
`kfork` that fails leaves the free list with the pages it had, and one that succeeds took off it
exactly the child's pages: its trapframe and the pages of its tree.
-/

namespace Xv6

/-! ## Calls to the allocator -/

section Calls

variable {«end» : Nat}

theorem calls_trans {vm₁ vm₂ vm₃ : Vm} (h₁ : ∃ evs, vm₂.calls = vm₁.calls ++ evs)
    (h₂ : ∃ evs, vm₃.calls = vm₂.calls ++ evs) : ∃ evs, vm₃.calls = vm₁.calls ++ evs := by
  obtain ⟨e₁, he₁⟩ := h₁
  obtain ⟨e₂, he₂⟩ := h₂
  exact ⟨e₁ ++ e₂, by rw [he₂, he₁, List.append_assoc]⟩

/-- `freewalk` only adds calls to the allocator (its frees). -/
theorem freewalk_calls (d : Nat) :
    ∀ pt vm vm', freewalk «end» d pt vm = .ok vm' → ∃ evs, vm'.calls = vm.calls ++ evs := by
  induction d with
  | zero =>
    intro pt vm vm' h
    cases h
  | succ d ih =>
    intro pt vm vm' h
    rw [freewalk] at h
    obtain ⟨vm₁, hloop, hfree⟩ := Loop.bind_eq_ok.mp h
    -- each round of the loop over the entries frees a subtree or changes nothing
    have hround := Loop.foldlM_rel (fun (a b : Vm) => ∃ evs, b.calls = a.calls ++ evs)
      (fun vm => ⟨[], by simp⟩) (fun _ _ _ => calls_trans) (fun s i s' hs => by
        dsimp only at hs
        split at hs
        · obtain ⟨s₁, hs₁, hw⟩ := Loop.bind_eq_ok.mp hs
          cases hw
          simpa using ih _ s s₁ hs₁
        · split at hs
          · cases hs
          · cases hs
            exact ⟨[], by simp⟩) _ vm vm₁ hloop
    obtain ⟨k, -, rfl⟩ := Vm.kfree_eq_ok hfree
    exact calls_trans hround ⟨_, rfl⟩

theorem uvmunmap_calls {r va n : Nat} {doFree : Bool} {vm vm' : Vm}
    (h : uvmunmap «end» r va n doFree vm = .ok vm') : ∃ evs, vm'.calls = vm.calls ++ evs := by
  unfold Xv6.uvmunmap at h
  split at h
  · cases h
  · exact uvmunmapLoop_calls r doFree n va vm vm' h

theorem uvmfree_calls {r sz : Nat} {vm vm' : Vm} (h : uvmfree «end» r sz vm = .ok vm') :
    ∃ evs, vm'.calls = vm.calls ++ evs := by
  rw [Xv6.uvmfree] at h
  by_cases hpos : 0 < sz
  · rw [if_pos hpos] at h
    obtain ⟨vm₁, h₁, h₂⟩ := Loop.bind_eq_ok.mp h
    exact calls_trans (uvmunmap_calls h₁) (freewalk_calls 3 r vm₁ vm' h₂)
  · rw [if_neg hpos, Loop.pure_eq_ok, Loop.ok_bind] at h
    exact freewalk_calls 3 r vm vm' h

theorem procFreepagetable_calls {r sz : Nat} {vm vm' : Vm}
    (h : procFreepagetable «end» r sz vm = .ok vm') : ∃ evs, vm'.calls = vm.calls ++ evs := by
  unfold Xv6.procFreepagetable at h
  obtain ⟨vm₁, h₁, h'⟩ := Loop.bind_eq_ok.mp h
  obtain ⟨vm₂, h₂, h₃⟩ := Loop.bind_eq_ok.mp h'
  exact calls_trans (uvmunmap_calls h₁) (calls_trans (uvmunmap_calls h₂) (uvmfree_calls h₃))

end Calls

/-! ## The holders' spaces and the pool -/

section Spaces

variable {ι : Type} [DecidableEq ι]

/-- The holders with `a` as the trapframe page of `y`. -/
def Space.setTf (sp : ι → Space) (y : ι) (a : Nat) : ι → Space :=
  Function.update sp y { sp y with tf := some a }

@[simp] theorem Space.setTf_root (sp : ι → Space) (y : ι) (a : Nat) (z : ι) :
    (Space.setTf sp y a z).root = (sp z).root := by
  by_cases hz : z = y
  · subst hz
    simp [Space.setTf]
  · simp [Space.setTf, hz]

@[simp] theorem Space.setRoot_tf (sp : ι → Space) (y : ι) (pt : Nat) (z : ι) :
    (Space.setRoot sp y pt z).tf = (sp z).tf := by
  by_cases hz : z = y
  · subst hz
    simp [Space.setRoot]
  · simp [Space.setRoot, hz]

theorem Space.setRoot_root_of_ne {sp : ι → Space} {y z : ι} (pt : Nat) (hz : z ≠ y) :
    (Space.setRoot sp y pt z).root = (sp z).root := by
  simp [Space.setRoot, hz]

theorem pageAt_setTf (mem : Nat → Nat → Nat) (sp : ι → Space) (y : ι) (a : Nat) :
    pageAt mem (Space.setTf sp y a) = Function.update (pageAt mem sp) (.tf y) (some a) := by
  funext P
  cases P with
  | tf z =>
    by_cases hz : z = y
    · subst hz
      simp [pageAt, Space.setTf]
    · simp [pageAt, Space.setTf, hz]
  | tbl z n => simp [pageAt]

variable {vm vm' : Vm} {sp : ι → Space} {y : ι}

/-- A change of the tree of `y` seen from the holders before `y` had it: no leaf of another
holder moved. -/
theorem LeavesOut.of_setRoot {pt : Nat} {S : Nat → Prop}
    (h : LeavesOut vm vm' (Space.setRoot sp y pt) y S) : LeavesOut vm vm' sp y fun _ => True :=
  fun z r hz i j k hi hj hk hS =>
    have hzy : z ≠ y := fun e => hS e trivial
    h z r (by rw [Space.setRoot_root_of_ne pt hzy]; exact hz) i j k hi hj hk fun e => absurd e hzy

/-- The other trees, seen from the holders before `y` had its tree. -/
theorem KeptOthers.of_setRoot {pt : Nat} (h : KeptOthers vm vm' (Space.setRoot sp y pt) y) :
    KeptOthers vm vm' sp y :=
  fun z r hzy hz => h z r hzy (by rw [Space.setRoot_root_of_ne pt hzy]; exact hz)

/-- The trapframe page given to `y` moves from the call to `y`. -/
theorem Pool.setTf (hy : (sp y).tf = none) (a : Nat) (H : Nat → Prop) :
    Pool vm sp y (fun b => H b ∨ b = a) = Pool vm (Space.setTf sp y a) y H := by
  have hold : pageAt vm.mem sp (.tf y) = none := hy
  funext b
  simp only [Pool, OfHolder, pageAt_setTf, Function.update_self, hold, reduceCtorEq,
    Option.some.injEq, ne_eq, not_false_eq_true, Function.update_of_ne, false_or, eq_iff_iff]
  tauto

/-- A fresh root given to `y`, which had no tree, moves from the call to `y`. -/
theorem Pool.setRoot (hy : (sp y).root = none) {pt : Nat} (hzero : ∀ i, ¬ Valid (vm.mem pt i))
    (H : Nat → Prop) :
    Pool vm sp y (fun b => H b ∨ b = pt) = Pool vm (Space.setRoot sp y pt) y H := by
  have hpage := pageAt_setRoot hy hzero
  have hold : ∀ n, pageAt vm.mem sp (.tbl y n) = none := fun n => by simp [pageAt, hy]
  -- the tree of `y` is its root page alone
  have hnew : ∀ b, (∃ n, pageAt vm.mem (Space.setRoot sp y pt) (.tbl y n) = some b) ↔ b = pt := by
    intro b
    rw [hpage]
    constructor
    · rintro ⟨n, hn⟩
      by_cases hr : n = .root
      · subst hr
        simp only [Function.update_self, Option.some.injEq] at hn
        exact hn.symm
      · rw [Function.update_of_ne (by simpa using hr), hold] at hn
        cases hn
    · rintro rfl
      exact ⟨.root, by simp⟩
  have htf : pageAt vm.mem (Space.setRoot sp y pt) (.tf y) = pageAt vm.mem sp (.tf y) := by
    simp [pageAt]
  funext b
  simp only [Pool, OfHolder, htf, hnew, hold, reduceCtorEq, exists_false, or_false, eq_iff_iff]
  tauto

/-- The tree of `y` freed: each of its pages went on the free list, which gained nothing else. -/
theorem Pool.dropRoot_freed {H : Nat → Prop}
    (hfreed : ∀ n a, pageAt vm.mem sp (.tbl y n) = some a → a ∈ vm'.kmem.freelist)
    (hgrow : ∀ b, b ∈ vm.kmem.freelist → b ∈ vm'.kmem.freelist)
    (honly : ∀ b, b ∈ vm'.kmem.freelist → b ∈ vm.kmem.freelist ∨
      ∃ n, pageAt vm.mem sp (.tbl y n) = some b) :
    Pool vm sp y H = Pool vm' (Space.dropRoot sp y) y H := by
  have htf : pageAt vm'.mem (Space.dropRoot sp y) (.tf y) = pageAt vm.mem sp (.tf y) := by
    simp [pageAt, Space.dropRoot]
  have htbl : ∀ n, pageAt vm'.mem (Space.dropRoot sp y) (.tbl y n) = none := fun n => by
    simp [pageAt, Space.dropRoot]
  funext b
  apply propext
  simp only [Pool, OfHolder, htf, htbl, reduceCtorEq, exists_false, or_false]
  constructor
  · rintro (hb | (hb | ⟨n, hn⟩) | hb)
    · exact .inl (hgrow b hb)
    · exact .inr (.inl hb)
    · exact .inl (hfreed n b hn)
    · exact .inr (.inr hb)
  · rintro (hb | hb | hb)
    · rcases honly b hb with hb | hn
      · exact .inl hb
      · exact .inr (.inl (.inr hn))
    · exact .inr (.inl (.inl hb))
    · exact .inr (.inr hb)

end Spaces

/-- A tree whose leaves are at most those of the trampoline and the trapframe, and which maps
neither, has no leaf. -/
theorem LeavesBelow.noleaf {mem : Nat → Nat → Nat} {r : Nat} (hb : LeavesBelow mem r 0)
    (htr : leafAt mem r TRAMPOLINE = none) (htf : leafAt mem r TRAPFRAME = none) :
    ∀ i j k, i < 512 → j < 512 → k < 512 → leafPte mem r i j k = none := by
  intro i j k hi hj hk
  by_contra hs
  rw [← leafAt_vaOf mem r hi hj hk] at hs
  rcases hb i j k hi hj hk (by rwa [← leafAt_vaOf mem r hi hj hk, ← Option.ne_none_iff_isSome])
    with he | he | he
  · exact hs (he ▸ htr)
  · exact hs (he ▸ htf)
  · exact absurd he (Nat.not_lt_zero _)

/-! ## `proc_pagetable` -/

section ProcPagetable

variable {ι : Type} [DecidableEq ι] {«end» : Nat} {k0 : Kmem} {vm : Vm} {sp : ι → Space} {y : ι}
  {r : Nat}

/-- `uvmfree(pagetable, 0)` of the tree that `y` was given, once it has no leaf: the holders are
as before `y` had it, the pool of `y` is kept, and the call keeps what it held. -/
theorem VmInv.freeRoot {pt : Nat} (h : VmInv «end» k0 vm (Space.setRoot sp y pt))
    (hy : (sp y).root = none)
    (hnoleaf : ∀ i j k, i < 512 → j < 512 → k < 512 → leafPte vm.mem pt i j k = none) :
    ∃ vm', Xv6.uvmfree «end» pt 0 vm = .ok vm' ∧ VmInv «end» k0 vm' sp ∧
      (∀ b, HeldPage «end» vm (Space.setRoot sp y pt) b → HeldPage «end» vm' sp b) ∧
      LeavesOut vm vm' sp y (fun _ => True) ∧
      (∀ H, Pool vm (Space.setRoot sp y pt) y H = Pool vm' sp y H) ∧
      ∃ evs, vm'.calls = vm.calls ++ evs := by
  have hy1 : (Space.setRoot sp y pt y).root = some pt := by simp [Space.setRoot]
  obtain ⟨vm', hfree, h', hfreed, hgrow, honly, hk, hoth, -⟩ :=
    h.uvmfree hy1 0 (by decide) fun i j k hi hj hk hs => by simp [hnoleaf i j k hi hj hk] at hs
  rw [Space.dropRoot_setRoot hy] at h' hk
  refine ⟨vm', hfree, h', hk, fun z r hz i j k hi hj hk' hS => ?_, fun H => ?_,
    uvmfree_calls hfree⟩
  · have hzy : z ≠ y := fun e => hS e trivial
    exact hoth z r hzy (by rw [Space.setRoot_root_of_ne pt hzy]; exact hz) i j k hi hj hk'
  · rw [Pool.dropRoot_freed hfreed hgrow honly, Space.dropRoot_setRoot hy]

omit [DecidableEq ι] in
/-- `uvmcreate()` writes only the page `kalloc` took off the free list. -/
theorem VmInv.keptOthers_uvmcreate (h : VmInv «end» k0 vm sp) (y : ι) :
    KeptOthers vm (Xv6.uvmcreate vm).2 sp y := by
  refine h.keptOthers fun p hp => .inr fun q hq => ?_
  by_cases hz : vm.kalloc.2 = 0
  · simp [Xv6.uvmcreate, hz, Vm.kalloc_mem] at hp
  · have hp' : p = vm.kalloc.2 := by
      by_contra hne
      simp [Xv6.uvmcreate, hz, Vm.zero_mem, Vm.kalloc_mem, hne] at hp
    have hfree : p ∈ vm.kmem.freelist := by
      rw [Vm.kalloc_freelist hz, hp']
      exact List.mem_cons_self
    exact h.excl.not_free q p hq hfree

variable (hend : KERNBASE ≤ «end»)
include hend

/-- `uvmcreate()` for a holder `y` without a tree, with the pool of `y`: `0` when memory is out,
or a fresh root that `y` now has. -/
theorem VmInv.uvmcreate_pool (h : VmInv «end» k0 vm sp) (hy : (sp y).root = none) :
    ∃ pt vm', Xv6.uvmcreate vm = (pt, vm') ∧ LeavesOut vm vm' sp y (fun _ => True) ∧
      (∃ evs, vm'.calls = vm.calls ++ evs) ∧
      ((pt = 0 ∧ VmInv «end» k0 vm' sp ∧ HeldKept «end» vm vm' sp ∧ RanOut vm vm' ∧
          ∀ H, Pool vm sp y H = Pool vm' sp y H) ∨
        (pt ≠ 0 ∧ VmInv «end» k0 vm' (Space.setRoot sp y pt) ∧ (∀ i, ¬ Valid (vm'.mem pt i)) ∧
          (∀ b, HeldPage «end» vm sp b → HeldPage «end» vm' (Space.setRoot sp y pt) b) ∧
          ∀ H, Pool vm sp y H = Pool vm' (Space.setRoot sp y pt) y H)) := by
  obtain ⟨pt, vm', heq, hkeep, hcase⟩ := h.uvmcreate hend hy
  have hout : LeavesOut vm vm' sp y fun _ => True :=
    fun z r hz i j k hi hj _ _ => hkeep z r hz i j k hi hj
  have hvm := congrArg Prod.snd heq
  have hcalls : vm'.calls = vm.calls ++ [.kalloc vm.kalloc.2] := by
    simp only [Xv6.uvmcreate] at hvm
    split_ifs at hvm <;> (subst hvm; rfl)
  refine ⟨pt, vm', heq, hout, ⟨_, hcalls⟩, ?_⟩
  rcases hcase with ⟨rfl, h', hk⟩ | ⟨hpt, h', hzero, hk⟩
  · -- `kalloc` found no page, and nothing moved
    have hz : vm.kalloc.2 = 0 := by
      by_contra hz
      exact hz ((uvmcreate_fst hz).symm.trans (congrArg Prod.fst heq))
    simp only [Xv6.uvmcreate, if_pos hz] at hvm
    subst hvm
    exact .inl ⟨rfl, h', hk, ⟨_, hcalls, by simp [hz]⟩, fun H =>
      Pool.of_grew (h.grew_kalloc_zero hend hz (S := fun _ => False)) (fun b hb => .inl hb)
        (fun b hb => .inl hb)
        fun b hb => hb⟩
  · have hz : vm.kalloc.2 ≠ 0 := fun hz => hpt (by
      simpa [Xv6.uvmcreate, hz] using (congrArg Prod.fst heq).symm)
    have hpt' : pt = vm.kalloc.2 := (congrArg Prod.fst heq).symm.trans (uvmcreate_fst hz)
    simp only [Xv6.uvmcreate, if_neg hz] at hvm
    subst hvm hpt'
    -- the page went from the free list to the call, and from the call to `y`
    have hheld := ((h.kalloc hend).2.2 hz).1
    have hpage : pageAt (vm.kalloc.1.zero vm.kalloc.2).mem sp = pageAt vm.kalloc.1.mem sp :=
      pageAt_congr fun z r hz' => tablePage_congr (zero_agree hheld.held.not_owned hz')
    have hfl : ∀ b, b ∈ (vm.kalloc.1.zero vm.kalloc.2).kmem.freelist ↔
        b ∈ vm.kalloc.1.kmem.freelist := fun b => Iff.rfl
    exact .inr ⟨hz, h', hzero, hk, fun H => (Pool.kalloc hz).trans
      ((Pool.congr hfl hpage).trans (Pool.setRoot hy hzero H))⟩

/-- `mappages` of one page at an aligned `va` from `TRAPFRAME` on, in the tree of `y`, where
nothing is mapped: such a leaf owns no page, so the pool of `y` is kept and the call keeps what
it held. -/
theorem VmInv.mapHigh (h : VmInv «end» k0 vm sp) (hy : (sp y).root = some r)
    (pa : Nat) {va perm : Nat} (hva : va % PGSIZE = 0) (hmax : va < MAXVA) (hhigh : TRAPFRAME ≤ va)
    (hperm : perm < 1024) (hnone : leafAt vm.mem r va = none) :
    ∃ res vm', Xv6.mappages r va PGSIZE pa perm vm = .ok (res, vm') ∧ VmInv «end» k0 vm' sp ∧
      HeldKept «end» vm vm' sp ∧ LeavesOut vm vm' sp y (· = va) ∧
      (∀ H, Pool vm sp y H = Pool vm' sp y H) ∧ KeptOthers vm vm' sp y ∧
      (∃ evs, vm'.calls = vm.calls ++ evs ∧ (res ≠ 0 → KEvent.kalloc 0 ∈ evs)) ∧
      ((res = 0 ∧ leafAt vm'.mem r va = some (PA2PTE pa ||| perm ||| PTE_V)) ∨
        (res = -1 ∧ leafAt vm'.mem r va = none)) := by
  obtain ⟨res, vm', hmap, h', hout, hg, hcalls, hcase⟩ :=
    h.mappages hend hy pa hva hmax hperm hnone fun hlt => absurd hlt (Nat.not_lt.mpr hhigh)
  -- the leaf of `va` owns no page, so `y` was given only page-table pages that were free
  have hnot : ¬ UserLeaf (PX 2 va) (PX 1 va) (PX 0 va) := fun hu =>
    Nat.not_lt.mpr hhigh ((userLeaf_PX hva hmax).mp hu)
  have hpool : ∀ H, Pool vm sp y H = Pool vm' sp y H := fun H =>
    Pool.of_grew hg (fun b hb => (h.mappages_ofHolder hend hy hmax hmap b hb).imp_right
      fun hb' => hb'.imp_right fun hu => absurd hu.1 hnot) (fun b hb => .inl hb) fun b hb => hb
  have hko := hg.keptOthers h h'
  rcases hcase with ⟨rfl, hleaf, hk⟩ | ⟨rfl, hleaf, hk⟩
  · exact ⟨0, vm', hmap, h', fun b hb => hk b (fun hlt => absurd hlt (Nat.not_lt.mpr hhigh)) hb,
      hout, hpool, hko, hcalls, .inl ⟨rfl, hleaf⟩⟩
  · exact ⟨-1, vm', hmap, h', hk, hout, hpool, hko, hcalls, .inr ⟨rfl, hleaf⟩⟩

/-- `proc_pagetable(p)` for a holder `y` without a tree, with any trapframe page `tf` (the leaf of
`TRAPFRAME` owns no page): `0` when memory runs out, with every page it took given back; or a
fresh tree of `y` that maps only the trampoline and the trapframe. No leaf of another holder
moves, the pool of `y` is kept, and what the call held it still holds. -/
theorem VmInv.procPagetable (h : VmInv «end» k0 vm sp) (hy : (sp y).root = none)
    (tf trampoline : Nat) :
    ∃ pt vm', Xv6.procPagetable «end» trampoline tf vm = .ok (pt, vm') ∧
      LeavesOut vm vm' sp y (fun _ => True) ∧ (∃ evs, vm'.calls = vm.calls ++ evs) ∧
      ((pt = 0 ∧ VmInv «end» k0 vm' sp ∧ HeldKept «end» vm vm' sp ∧ RanOut vm vm' ∧
          ∀ H, Pool vm sp y H = Pool vm' sp y H) ∨
        (pt ≠ 0 ∧ VmInv «end» k0 vm' (Space.setRoot sp y pt) ∧
          (∀ b, HeldPage «end» vm sp b → HeldPage «end» vm' (Space.setRoot sp y pt) b) ∧
          LeavesBelow vm'.mem pt 0 ∧
          (∀ H, Pool vm sp y H = Pool vm' (Space.setRoot sp y pt) y H) ∧
          KeptOthers vm vm' sp y)) := by
  have hT : TRAPFRAME < MAXVA := by decide
  obtain ⟨pt, vm1, hcr, hout1, hc1, hcase1⟩ := h.uvmcreate_pool hend hy
  have hko1 : KeptOthers vm vm1 sp y := by
    have := h.keptOthers_uvmcreate y
    rwa [hcr] at this
  simp only [Xv6.procPagetable, hcr]
  rcases hcase1 with ⟨rfl, h1, hk1, hran1, hpool1⟩ | ⟨hpt, h1, hzero1, hk1, hpool1⟩
  · -- no page for the root
    exact ⟨0, vm1, rfl, hout1, hc1, .inl ⟨rfl, h1, hk1, hran1, hpool1⟩⟩
  rw [if_neg hpt]
  have hy1 : (Space.setRoot sp y pt y).root = some pt := by simp [Space.setRoot]
  have hb1 : LeavesBelow vm1.mem pt 0 := fun i j k _ _ _ hs => by
    simp [leafPte_fresh hzero1] at hs
  -- the trampoline
  obtain ⟨r2, vm2, hmap2, h2, hk2, hout2, hpool2, hko2, ⟨evs2, hc2, hn2⟩, hcase2⟩ :=
    h1.mapHigh hend hy1 trampoline (by decide : TRAMPOLINE % PGSIZE = 0) (by decide) (by decide)
      (by decide : PTE_R ||| PTE_X < 1024) (leafPte_fresh hzero1 _ _ _)
  have hb2 : LeavesBelow vm2.mem pt 0 := hb1.of_out hout2 hy1 le_rfl fun v _ hv =>
    ⟨by rw [hv]; decide, fun _ => .inl hv⟩
  have hout12 := hout1.trans hout2.of_setRoot
  rw [hmap2, Loop.ok_bind]
  rcases hcase2 with ⟨rfl, hleaf2⟩ | ⟨rfl, hleaf2⟩
  swap
  · -- `walk` ran out of memory: `uvmfree(pagetable, 0)`
    rw [if_pos (by simp)]
    have hnone2 : leafAt vm2.mem pt TRAPFRAME = none := by
      rw [hout2.leafAt hy1 (by decide) hT (by decide)]
      exact leafPte_fresh hzero1 _ _ _
    obtain ⟨vm3, hfree3, h3, hk3, hout3, hpool3, hc3⟩ :=
      h2.freeRoot hy (hb2.noleaf hleaf2 hnone2)
    rw [hfree3, Loop.ok_bind]
    obtain ⟨evs3, hc3⟩ := hc3
    exact ⟨0, vm3, rfl, (hout12.trans hout3).mono fun _ _ => trivial,
      calls_trans hc1 (calls_trans ⟨_, hc2⟩ ⟨_, hc3⟩), .inl ⟨rfl, h3,
        fun b hb => hk3 _ (hk2 _ (hk1 _ hb)),
        RanOut.prepend hc1.choose_spec (RanOut.append ⟨evs2, hc2, hn2 (by decide)⟩ hc3),
        fun H => (hpool1 H).trans ((hpool2 H).trans (hpool3 H))⟩⟩
  rw [if_neg (by simp)]
  -- the trapframe
  have hnone2 : leafAt vm2.mem pt TRAPFRAME = none := by
    rw [hout2.leafAt hy1 (by decide) hT (by decide)]
    exact leafPte_fresh hzero1 _ _ _
  obtain ⟨r3, vm3, hmap3, h3, hk3, hout3, hpool3, hko3, ⟨evs3, hc3, hn3⟩, hcase3⟩ :=
    h2.mapHigh hend hy1 tf (by decide : TRAPFRAME % PGSIZE = 0) hT le_rfl
      (by decide : PTE_R ||| PTE_W < 1024) hnone2
  have hb3 : LeavesBelow vm3.mem pt 0 := hb2.of_out hout3 hy1 le_rfl fun v _ hv =>
    ⟨hv ▸ hT, fun _ => .inr (.inl hv)⟩
  rw [hmap3, Loop.ok_bind]
  rcases hcase3 with ⟨rfl, hleaf3⟩ | ⟨rfl, hleaf3⟩
  · -- both mapped
    rw [if_neg (by simp)]
    exact ⟨pt, vm3, rfl, (hout12.trans hout3.of_setRoot).mono fun _ _ => trivial,
      calls_trans hc1 (calls_trans ⟨_, hc2⟩ ⟨_, hc3⟩), .inr ⟨hpt, h3,
        fun b hb => hk3 _ (hk2 _ (hk1 _ hb)),
        hb3, fun H => (hpool1 H).trans ((hpool2 H).trans (hpool3 H)),
        hko1.trans (hko2.of_setRoot.trans hko3.of_setRoot)⟩⟩
  · -- `walk` ran out of memory: `uvmunmap(pagetable, TRAMPOLINE, 1, 0)`, `uvmfree(pagetable, 0)`
    rw [if_pos (by simp)]
    obtain ⟨vm4, hun4, h4, hnone4, hout4, hk4, hrel4, hshed4, -⟩ := h3.uvmunmap hy1 (n := 1) false
      (by decide : TRAMPOLINE % PGSIZE = 0) (by decide) fun hc => absurd hc (by decide)
    rw [hun4, Loop.ok_bind]
    have hb4 : LeavesBelow vm4.mem pt 0 := hb3.of_out hout4 hy1 le_rfl fun v hv hS =>
      ⟨lt_of_lt_of_le hS.2 (by decide), fun _ => .inl (by
        by_contra hne
        have := aligned_add_le (by decide : TRAMPOLINE % PGSIZE = 0) hv
          (lt_of_le_of_ne hS.1 (Ne.symm hne))
        omega)⟩
    have htr4 : leafAt vm4.mem pt TRAMPOLINE = none :=
      hnone4 _ (by decide) le_rfl (by decide)
    have htf4 : leafAt vm4.mem pt TRAPFRAME = none := by
      rw [hout4.leafAt hy1 (by decide) hT (by decide)]
      exact hleaf3
    obtain ⟨vm5, hfree5, h5, hk5, hout5, hpool5, hc5⟩ := h4.freeRoot hy (hb4.noleaf htr4 htf4)
    rw [hfree5, Loop.ok_bind]
    obtain ⟨evs4, hc4⟩ := uvmunmap_calls hun4
    obtain ⟨evs5, hc5⟩ := hc5
    exact ⟨0, vm5, rfl, (((hout12.trans hout3.of_setRoot).trans hout4.of_setRoot).trans
        hout5).mono fun _ _ => trivial,
      calls_trans hc1 (calls_trans ⟨_, hc2⟩ (calls_trans ⟨_, hc3⟩ (calls_trans ⟨_, hc4⟩ ⟨_, hc5⟩))),
      .inl ⟨rfl, h5, fun b hb => hk5 _ (hk4 _ (hk3 _ (hk2 _ (hk1 _ hb)))),
        RanOut.prepend hc1.choose_spec (RanOut.prepend hc2
          (RanOut.append (RanOut.append ⟨evs3, hc3, hn3 (by decide)⟩ hc4) hc5)),
        fun H => (hpool1 H).trans ((hpool2 H).trans ((hpool3 H).trans
          ((Pool.of_shed (hrel4 (.inr (by decide))) hshed4).trans (hpool5 H))))⟩⟩

end ProcPagetable

/-! ## `allocproc` and `freeproc` -/

section Alloc

variable {ι : Type} [DecidableEq ι] {«end» : Nat} {k0 : Kmem} {vm : Vm} {sp : ι → Space} {y : ι}

/-- A page the call holds, made the trapframe of `y`: ownership stays exclusive. -/
theorem VmInv.giveTf {a : Nat} (h : VmInv «end» k0 vm sp) (hpg : HeldPage «end» vm sp a) (y : ι) :
    VmInv «end» k0 vm (Space.setTf sp y a) :=
  (h.give (P := .tf y) hpg (pageAt_setTf _ _ _ _) rfl rfl
    fun z r hz => h.interior z r (by simpa using hz)).1

/-- `freeproc(np)` for the child that `kfork` built, once `uvmcopy` gave up: `np` has the
trapframe `tf` the call holds, the page table `pt` of `y`, which maps nothing below `TRAPFRAME`,
and size `0`. Both go back to the allocator: the holders are as before `y` had its tree, and the
pool of `y` is kept. -/
theorem VmInv.freeprocMem {pt tf : Nat} (h : VmInv «end» k0 vm (Space.setRoot sp y pt))
    (hy : (sp y).root = none) (htf : HeldPage «end» vm (Space.setRoot sp y pt) tf)
    (hb : LeavesBelow vm.mem pt 0) {np : Proc} (htf0 : tf ≠ 0) (hpt0 : pt ≠ 0) (hsz : np.sz = 0) :
    ∃ vm', freeprocMem «end» { np with trapframe := tf, pagetable := pt } vm = .ok vm' ∧
      VmInv «end» k0 vm' sp ∧ LeavesOut vm vm' sp y (fun _ => True) ∧
      (∀ H, Pool vm (Space.setRoot sp y pt) y (fun b => H b ∨ b = tf) = Pool vm' sp y H) ∧
      ∃ evs, vm'.calls = vm.calls ++ evs := by
  have hy1 : (Space.setRoot sp y pt y).root = some pt := by simp [Space.setRoot]
  obtain ⟨vm1, hfree1, h1, hmem1, hfl1, -⟩ := h.kfree_held htf
  obtain ⟨k, -, hvm1⟩ := Vm.kfree_eq_ok hfree1
  have hc1 : vm1.calls = vm.calls ++ [.kfree tf] := by rw [hvm1]
  obtain ⟨vm2, hpf, h2, hfreed, hgrow, honly, -, hoth, -⟩ :=
    h1.procFreepagetable hy1 0 (by decide) (by rw [hmem1]; exact hb)
  rw [Space.dropRoot_setRoot hy] at h2
  refine ⟨vm2, by simp [Xv6.freeprocMem, htf0, hpt0, hsz, hfree1, hpf], h2,
    fun z r hz i j k hi hj hk hS => ?_, fun H => ?_,
    calls_trans ⟨_, hc1⟩ (procFreepagetable_calls hpf)⟩
  · have hzy : z ≠ y := fun e => hS e trivial
    rw [hoth z r hzy (by rw [Space.setRoot_root_of_ne pt hzy]; exact hz) i j k hi hj hk, hmem1]
  · rw [Pool.kfree hmem1 hfl1 fun b => Iff.rfl, Pool.dropRoot_freed hfreed hgrow honly,
      Space.dropRoot_setRoot hy]

variable (hend : KERNBASE ≤ «end»)
include hend

/-- The allocations of `allocproc()` for the slot `np` of a holder `y` that has nothing, where
`np` has no page table: a trapframe page `tf` and a page table `pt`. When either is `0` memory
ran out, `freeproc(np)` gave back what was taken, and the pool of `y` is as it was; otherwise
`y` has the fresh tree `pt`, which maps only the trampoline and the trapframe, and the call
holds `tf`. No leaf of another holder moves. -/
theorem VmInv.allocprocMem (h : VmInv «end» k0 vm sp) (hy : sp y = ⟨none, none⟩) {np : Proc}
    (hnp : np.pagetable = 0) (trampoline : Nat) :
    ∃ tf pt vm', allocprocMem «end» trampoline np vm = .ok (tf, pt, vm') ∧
      LeavesOut vm vm' sp y (fun _ => True) ∧
      (((tf = 0 ∨ pt = 0) ∧ VmInv «end» k0 vm' sp ∧ RanOut vm vm' ∧
          ∀ H, Pool vm sp y H = Pool vm' sp y H) ∨
        (tf ≠ 0 ∧ pt ≠ 0 ∧ VmInv «end» k0 vm' (Space.setRoot sp y pt) ∧
          HeldPage «end» vm' (Space.setRoot sp y pt) tf ∧ LeavesBelow vm'.mem pt 0 ∧
          (∃ evs, vm'.calls = vm.calls ++ evs) ∧
          ∀ H, Pool vm sp y H = Pool vm' (Space.setRoot sp y pt) y fun b => H b ∨ b = tf)) := by
  have hroot : (sp y).root = none := by rw [hy]
  obtain ⟨h1, -, hpg⟩ := h.kalloc hend
  have hc1 : vm.kalloc.1.calls = vm.calls ++ [.kalloc vm.kalloc.2] := rfl
  have hout1 : LeavesOut vm vm.kalloc.1 sp y fun _ => True := fun _ _ _ _ _ _ _ _ _ _ => rfl
  by_cases hz : vm.kalloc.2 = 0
  · -- no trapframe page: `freeproc(p)` finds nothing to free
    refine ⟨0, 0, vm.kalloc.1, by simp [Xv6.allocprocMem, Xv6.freeprocMem, hz, hnp], hout1,
      .inl ⟨.inl rfl, h1, ⟨_, hc1, by simp [hz]⟩, fun H =>
        Pool.of_grew (h.grew_kalloc_zero hend hz (S := fun _ => False)) (fun b hb => .inl hb)
          (fun b hb => .inl hb) fun b hb => hb⟩⟩
  obtain ⟨htf, -⟩ := hpg hz
  obtain ⟨pt, vm2, hpp, hout2, hc2, hcase⟩ := h1.procPagetable hend hroot vm.kalloc.2 trampoline
  rcases hcase with ⟨rfl, h2, hk2, hran2, hpool2⟩ | ⟨hpt, h2, hk2, hb2, hpool2, -⟩
  · -- no page table: `freeproc(p)` frees the trapframe page
    obtain ⟨vm3, hfree3, h3, hmem3, hfl3, -⟩ := h2.kfree_held (hk2 _ htf)
    obtain ⟨k, -, hvm3⟩ := Vm.kfree_eq_ok hfree3
    have hc3 : vm3.calls = vm2.calls ++ [.kfree vm.kalloc.2] := by rw [hvm3]
    refine ⟨vm.kalloc.2, 0, vm3, by simp [Xv6.allocprocMem, Xv6.freeprocMem, hz, hpp, hfree3],
      fun z r hz' i j k hi hj hk hS => ?_, .inl ⟨.inr rfl, h3,
        RanOut.prepend hc1 (RanOut.append hran2 hc3), fun H => (Pool.kalloc hz).trans
          ((hpool2 _).trans (Pool.kfree hmem3 hfl3 fun b => Iff.rfl))⟩⟩
    rw [hmem3, hout2 z r hz' i j k hi hj hk hS]
    rfl
  · refine ⟨vm.kalloc.2, pt, vm2, by simp [Xv6.allocprocMem, hz, hpp, hpt], hout1.trans hout2 |>.mono
      fun _ _ => trivial, .inr ⟨hz, hpt, h2, hk2 _ htf, hb2, calls_trans ⟨_, hc1⟩ hc2,
        fun H => (Pool.kalloc hz).trans (hpool2 _)⟩⟩

end Alloc

/-! ## `kfork` -/

section Fork

variable {ι : Type} [DecidableEq ι] {«end» : Nat} {k0 : Kmem} {vm vm' : Vm} {sp : ι → Space}
  {x y : ι}

/-- Two free lists of the allocator's invariant with the same pages have the same count. -/
theorem KmemInv.count_eq_of_mem_iff {s s' : Kmem} (h : KmemInv «end» s) (h' : KmemInv «end» s')
    (hmem : ∀ b, b ∈ s'.freelist ↔ b ∈ s.freelist) : s'.freePagesCount = s.freePagesCount := by
  rw [h'.count_eq, h.count_eq,
    ((List.perm_ext_iff_of_nodup h'.nodup h.nodup).mpr hmem).length_eq]

omit [DecidableEq ι] in
/-- A call that keeps the pool of `y`, which has nothing at both ends, while the call holds
nothing, leaves the free list with the pages it had and the same count. -/
theorem Pool.free_eq (hy : sp y = ⟨none, none⟩) (hk : KmemInv «end» vm.kmem)
    (hk' : KmemInv «end» vm'.kmem)
    (hpool : Pool vm sp y (fun _ => False) = Pool vm' sp y fun _ => False) :
    (∀ b, b ∈ vm'.kmem.freelist ↔ b ∈ vm.kmem.freelist) ∧
      vm'.kmem.freePagesCount = vm.kmem.freePagesCount := by
  have hmem : ∀ b, b ∈ vm'.kmem.freelist ↔ b ∈ vm.kmem.freelist := fun b =>
    ((pool_empty hy b).symm.trans (Iff.of_eq (congrFun hpool b).symm)).trans (pool_empty hy b)
  exact ⟨hmem, hk.count_eq_of_mem_iff hk' hmem⟩

variable (hend : KERNBASE ≤ «end»)
include hend

/-- The memory side of `kfork()` by a process `p` whose memory keeps `UserMem` as the holder `x`,
into the `UNUSED` slot `np` of a holder `y` that has nothing: it cannot panic, and only leaves of
`y` move. When it gives up, the holders are as they were, memory ran out and the pool of `y` is
kept; when it succeeds, `y` has the trapframe `tf` and the tree `pt`, the child's memory keeps
`UserMem`, and the pool of `y` is kept. -/
theorem UserMem.kforkMem {p : Proc} (hp : UserMem «end» k0 vm sp x p) (hy : sp y = ⟨none, none⟩)
    (hxy : x ≠ y) {np : Proc} (hnp : np.pagetable = 0) (hsz : np.sz = 0) (trampoline : Nat) :
    ∃ tf pt ok vm', kforkMem «end» trampoline p np vm = .ok (tf, pt, ok, vm') ∧
      LeavesOut vm vm' sp y (fun _ => True) ∧
      (ok = false → VmInv «end» k0 vm' sp ∧ RanOut vm vm' ∧
        Pool vm sp y (fun _ => False) = Pool vm' sp y fun _ => False) ∧
      (ok = true → tf ≠ 0 ∧ pt ≠ 0 ∧
        UserMem «end» k0 vm' (Space.setTf (Space.setRoot sp y pt) y tf) y
          { np with pagetable := pt, sz := p.sz } ∧
        Pool vm sp y (fun _ => False) =
          Pool vm' (Space.setTf (Space.setRoot sp y pt) y tf) y fun _ => False) := by
  have hroot : (sp y).root = none := by rw [hy]
  obtain ⟨tf, pt, vm1, halloc, hout1, hcase1⟩ := hp.inv.allocprocMem hend hy hnp trampoline
  rcases hcase1 with ⟨hfail, h1, hran1, hpool1⟩ | ⟨htf, hpt, h1, htf1, hb1, hc1, hpool1⟩
  · -- `allocproc` gave up
    have hrun : Xv6.kforkMem «end» trampoline p np vm = .ok (tf, pt, false, vm1) := by
      simp [Xv6.kforkMem, halloc, hfail]
    exact ⟨tf, pt, false, vm1, hrun, hout1, fun _ => ⟨h1, hran1, hpool1 _⟩,
      fun h => absurd h (by simp)⟩
  -- `allocproc` gave `y` its tree, and the call holds the trapframe
  have hx1 : (Space.setRoot sp y pt x).root = some p.pagetable :=
    (Space.setRoot_root_of_ne pt hxy).trans hp.root
  have hy1 : (Space.setRoot sp y pt y).root = some pt := by simp [Space.setRoot]
  obtain ⟨r, vm2, hcopy, h2, hk2, hpool2, hout2, hcase2⟩ :=
    h1.uvmcopy hend hx1 hy1 hxy hp.sz_le hb1
  have hout12 := (hout1.trans hout2.of_setRoot).mono fun _ _ => trivial
  rcases hcase2 with ⟨rfl, -, hb2, -⟩ | ⟨rfl, hb2, -, hran2⟩
  · -- the copy is done: the trapframe goes to the child
    have hrun : Xv6.kforkMem «end» trampoline p np vm = .ok (tf, pt, true, vm2) := by
      simp [Xv6.kforkMem, halloc, htf, hpt, hcopy]
    have h3 := h2.giveTf (hk2 _ htf1) y
    have htf0 : (Space.setRoot sp y pt y).tf = none := by simp [hy]
    exact ⟨tf, pt, true, vm2, hrun, hout12, fun h => absurd h (by simp),
      fun _ => ⟨htf, hpt, ⟨h3, by simpa using hy1, hp.sz_le, hb2⟩,
        (hpool1 _).trans ((hpool2 _).trans (Pool.setTf htf0 tf _))⟩⟩
  · -- the copy gave up: `freeproc(np)` gives back the trapframe and the tree
    obtain ⟨vm3, hfp, h3, hout3, hpool3, hc3⟩ :=
      h2.freeprocMem hroot (hk2 _ htf1) hb2 htf hpt hsz
    have hrun : Xv6.kforkMem «end» trampoline p np vm = .ok (tf, pt, false, vm3) := by
      simp [Xv6.kforkMem, halloc, htf, hpt, hcopy, hfp]
    obtain ⟨evs1, hc1⟩ := hc1
    obtain ⟨evs3, hc3⟩ := hc3
    exact ⟨tf, pt, false, vm3, hrun, (hout12.trans hout3).mono fun _ _ => trivial,
      fun _ => ⟨h3, RanOut.prepend hc1 (RanOut.append hran2 hc3),
        (hpool1 _).trans ((hpool2 _).trans (hpool3 fun _ => False))⟩,
      fun h => absurd h (by simp)⟩

/-- The memory side of `kfork()` by a process `p` whose memory keeps `UserMem`, into the
`UNUSED` slot `np` of a holder `y` that has nothing; like every `UNUSED` slot, `np` has no page
table and size `0`. It cannot panic and moves no leaf of the parent. When it gives up, memory
ran out and the free list has the pages it had, with the same count: nothing leaked. When it
succeeds, `y` has the trapframe `tf` and the tree `pt`, both processes keep `UserMem`, and the
pages taken off the free list are exactly the child's. -/
theorem kfork_memory {p : Proc} (hp : UserMem «end» k0 vm sp x p) (hy : sp y = ⟨none, none⟩)
    (hxy : x ≠ y) {np : Proc} (hnp : np.pagetable = 0) (hsz : np.sz = 0) (trampoline : Nat) :
    ∃ tf pt ok vm', kforkMem «end» trampoline p np vm = .ok (tf, pt, ok, vm') ∧
      (∀ v, leafAt vm'.mem p.pagetable v = leafAt vm.mem p.pagetable v) ∧
      (ok = false → UserMem «end» k0 vm' sp x p ∧ RanOut vm vm' ∧
        (∀ b, b ∈ vm'.kmem.freelist ↔ b ∈ vm.kmem.freelist) ∧
        vm'.kmem.freePagesCount = vm.kmem.freePagesCount) ∧
      (ok = true → tf ≠ 0 ∧ pt ≠ 0 ∧
        UserMem «end» k0 vm' (Space.setTf (Space.setRoot sp y pt) y tf) x p ∧
        UserMem «end» k0 vm' (Space.setTf (Space.setRoot sp y pt) y tf) y
          { np with pagetable := pt, sz := p.sz } ∧
        ∀ b, b ∈ vm.kmem.freelist ↔
          b ∈ vm'.kmem.freelist ∨ OfHolder vm'.mem (Space.setTf (Space.setRoot sp y pt) y tf) y b) := by
  obtain ⟨tf, pt, ok, vm', hrun, hout, hfail, hdone⟩ :=
    hp.kforkMem hend hy hxy hnp hsz trampoline
  -- the parent's leaves did not move
  have hleaf := fun i j k (hi : i < 512) (hj : j < 512) (hk : k < 512) =>
    hout x p.pagetable hp.root i j k hi hj hk fun e => absurd e hxy
  refine ⟨tf, pt, ok, vm', hrun, fun v => hleaf _ _ _ (PX_lt 2 v) (PX_lt 1 v) (PX_lt 0 v),
    fun hok => ?_, fun hok => ?_⟩
  · obtain ⟨h', hran, hpool⟩ := hfail hok
    exact ⟨hp.of_leaves h' rfl hleaf, hran, Pool.free_eq hy hp.inv.kmem h'.kmem hpool⟩
  · obtain ⟨htf, hpt, hchild, hpool⟩ := hdone hok
    refine ⟨htf, hpt, hp.of_leaves hchild.inv (by simp [Space.setRoot_root_of_ne pt hxy]) hleaf,
      hchild, fun b => ?_⟩
    -- the pool of `y` at the start is the free list, at the end the free list and the child
    rw [← pool_empty hy b, hpool]
    simp only [Pool, or_false]

end Fork

/-- A process whose page table is the first page `kalloc` gave out after `kinit`, made empty by
`uvmcreate` as the tree of the holder `x`, with any size up to `TRAPFRAME`: nothing is mapped, so
its memory keeps `UserMem`. -/
theorem userMem_first_table_at {ι : Type} [DecidableEq ι] (x : ι) {sz : Nat}
    (hsz : sz ≤ TRAPFRAME) :
    let k0 := (kinit 0x80021000).getD Kmem.boot
    let pt := Xv6.uvmcreate ⟨k0, fun _ _ => 0, []⟩
    UserMem 0x80021000 k0 pt.2 (Space.setRoot (fun _ : ι => ⟨none, none⟩) x pt.1) x
      { Proc.zero with pagetable := pt.1, sz := sz } := by
  intro k0
  obtain ⟨s0, hs0, hinv, hall⟩ := kinit_spec 0x80021000
  have hk0 : k0 = s0 := by simp only [k0, hs0, Option.getD_some]
  rw [← hk0] at hinv hall
  exact userMem_uvmcreate (by decide) hinv (hall 0x80021000 (by decide)) x hsz

/-- A `kfork` by a one-page process whose page table was the first page `kalloc` gave out after
`kinit`, into an empty slot. -/
theorem kfork_memory_first_table :
    let k0 := (kinit 0x80021000).getD Kmem.boot
    let pt := Xv6.uvmcreate ⟨k0, fun _ _ => 0, []⟩
    let sp := Space.setRoot (fun _ : Bool => ⟨none, none⟩) false pt.1
    let p : Proc := { Proc.zero with pagetable := pt.1, sz := PGSIZE }
    KERNBASE ≤ 0x80021000 ∧ UserMem 0x80021000 k0 pt.2 sp false p ∧ sp true = ⟨none, none⟩ ∧
      false ≠ true ∧ Proc.zero.pagetable = 0 ∧ Proc.zero.sz = 0 ∧
      ∃ tf pt' ok vm', kforkMem 0x80021000 KERNBASE p Proc.zero pt.2 = .ok (tf, pt', ok, vm') ∧
        (∀ v, leafAt vm'.mem p.pagetable v = leafAt pt.2.mem p.pagetable v) ∧
        (ok = false → UserMem 0x80021000 k0 vm' sp false p ∧ RanOut pt.2 vm' ∧
          (∀ b, b ∈ vm'.kmem.freelist ↔ b ∈ pt.2.kmem.freelist) ∧
          vm'.kmem.freePagesCount = pt.2.kmem.freePagesCount) ∧
        (ok = true → tf ≠ 0 ∧ pt' ≠ 0 ∧
          UserMem 0x80021000 k0 vm' (Space.setTf (Space.setRoot sp true pt') true tf) false p ∧
          UserMem 0x80021000 k0 vm' (Space.setTf (Space.setRoot sp true pt') true tf) true
            { Proc.zero with pagetable := pt', sz := p.sz } ∧
          ∀ b, b ∈ pt.2.kmem.freelist ↔ b ∈ vm'.kmem.freelist ∨
            OfHolder vm'.mem (Space.setTf (Space.setRoot sp true pt') true tf) true b) :=
  have hend : KERNBASE ≤ 0x80021000 := by decide
  have hp := userMem_first_table_at false (by decide : PGSIZE ≤ TRAPFRAME)
  have hy : Space.setRoot (fun _ : Bool => (⟨none, none⟩ : Space)) false
      (Xv6.uvmcreate ⟨(kinit 0x80021000).getD Kmem.boot, fun _ _ => 0, []⟩).1 true =
      ⟨none, none⟩ := by simp [Space.setRoot]
  ⟨hend, hp, hy, Bool.false_ne_true, rfl, rfl,
    kfork_memory hend hp hy Bool.false_ne_true rfl rfl KERNBASE⟩

end Xv6
