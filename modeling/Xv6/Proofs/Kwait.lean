import Xv6.Proofs.Kfork
import Xv6.Proofs.ProcTree

/-!
# Reaping a child: `freeproc` in `kwait`

When `kwait` by `p` finds a `ZOMBIE` child and copies its status out, `freeproc` frees the
child's trapframe page and, with `proc_freepagetable`, its user pages and page-table pages. The
child is a holder `y` of the ownership invariant that owns its trapframe and a tree whose memory
keeps `UserMem`. All of it goes back: afterwards `y` has nothing, and the free list has gained
exactly the pages of `y` (`Pool` again, now run from a full holder to an empty one).
-/

namespace Xv6

section Spaces

variable {ι : Type} [DecidableEq ι]

/-- The holders with `y` letting go of its trapframe page. -/
def Space.dropTf (sp : ι → Space) (y : ι) : ι → Space :=
  Function.update sp y { sp y with tf := none }

@[simp] theorem Space.dropTf_root (sp : ι → Space) (y : ι) (z : ι) :
    (Space.dropTf sp y z).root = (sp z).root := by
  by_cases hz : z = y
  · subst hz
    simp [Space.dropTf]
  · simp [Space.dropTf, hz]

theorem pageAt_dropTf (mem : Nat → Nat → Nat) (sp : ι → Space) (y : ι) :
    pageAt mem (Space.dropTf sp y) = Function.update (pageAt mem sp) (.tf y) none := by
  funext P
  cases P with
  | tf z =>
    by_cases hz : z = y
    · subst hz
      simp [pageAt, Space.dropTf]
    · simp [pageAt, Space.dropTf, hz]
  | tbl z n => simp [pageAt]

/-- With its trapframe and its tree gone, `y` has nothing. -/
theorem Space.dropRoot_dropTf_self (sp : ι → Space) (y : ι) :
    Space.dropRoot (Space.dropTf sp y) y y = ⟨none, none⟩ := by
  simp [Space.dropRoot, Space.dropTf]

variable {vm : Vm} {sp : ι → Space} {y : ι}

/-- The trapframe page of `y` moves from `y` to the call. -/
theorem Pool.dropTf {a : Nat} (hy : (sp y).tf = some a) (H : Nat → Prop) :
    Pool vm sp y H = Pool vm (Space.dropTf sp y) y (fun b => H b ∨ b = a) := by
  have hold : pageAt vm.mem sp (.tf y) = some a := hy
  funext b
  simp only [Pool, OfHolder, pageAt_dropTf, Function.update_self, hold, reduceCtorEq,
    Option.some.injEq, ne_eq, not_false_eq_true, Function.update_of_ne, false_or, eq_iff_iff]
  constructor
  · rintro (hb | (rfl | hb) | hb)
    · exact .inl hb
    · exact .inr (.inr (.inr rfl))
    · exact .inr (.inl hb)
    · exact .inr (.inr (.inl hb))
  · rintro (hb | hb | hb | rfl)
    · exact .inl hb
    · exact .inr (.inl (.inr hb))
    · exact .inr (.inr hb)
    · exact .inr (.inl (.inl rfl))

/-- `y` lets go of its trapframe page, which the call then holds. -/
theorem VmInv.dropTf {«end» : Nat} {k0 : Kmem} {a : Nat} (h : VmInv «end» k0 vm sp)
    (hy : (sp y).tf = some a) :
    VmInv «end» k0 vm (Space.dropTf sp y) ∧ HeldPage «end» vm (Space.dropTf sp y) a ∧
      ∀ b, HeldPage «end» vm sp b → HeldPage «end» vm (Space.dropTf sp y) b := by
  have hP : pageAt vm.mem sp (.tf y) = some a := hy
  have hpage := pageAt_dropTf vm.mem sp y
  obtain ⟨hex, hheld⟩ := h.excl.drop hP
  obtain ⟨hm, hr⟩ := h.owned _ a hP
  refine ⟨⟨h.kmem, h.run, ?_, fun q b hq => ?_, fun z r hz => ?_⟩, ⟨?_, hm, hr⟩, fun b hb => ?_⟩
  · rw [hpage]
    exact hex
  · rw [hpage, Function.update_apply] at hq
    split_ifs at hq
    exact h.owned q b hq
  · exact h.interior z r (by simpa using hz)
  · rw [hpage]
    exact hheld
  · refine ⟨⟨fun q hq => ?_, hb.held.not_free⟩, hb.managed, hb.ref⟩
    rw [hpage, Function.update_apply] at hq
    split_ifs at hq
    exact hb.held.not_owned q hq

end Spaces

/-! ## `freeproc` of a live process -/

section Free

variable {ι : Type} [DecidableEq ι] {«end» : Nat} {k0 : Kmem} {vm : Vm} {sp : ι → Space} {y : ι}
  {p : Proc}

variable (hend : KERNBASE ≤ «end»)
include hend

omit [DecidableEq ι] in
/-- The page table of a process whose memory keeps `UserMem` is a managed page, so not `0`. -/
theorem UserMem.pagetable_ne_zero (hp : UserMem «end» k0 vm sp y p) : p.pagetable ≠ 0 := by
  have hroot : pageAt vm.mem sp (.tbl y .root) = some p.pagetable := by
    simp [pageAt, hp.root, tablePage]
  exact (hp.inv.owned _ _ hroot).1.ne_zero hend

/-- `freeproc(p)` for a process whose memory keeps `UserMem` as the holder `y`, which owns the
trapframe page of `p`: it cannot panic, the trapframe, the user pages and the page-table pages
all go back to the allocator, no leaf of another holder moves, and the pool of `y` is kept, so
that what `y` had is now free. -/
theorem UserMem.freeproc (hp : UserMem «end» k0 vm sp y p) (htf : (sp y).tf = some p.trapframe) :
    ∃ vm', freeprocMem «end» p vm = .ok vm' ∧
      VmInv «end» k0 vm' (Space.dropRoot (Space.dropTf sp y) y) ∧
      LeavesOut vm vm' sp y (fun _ => True) ∧
      (∀ H, Pool vm sp y H = Pool vm' (Space.dropRoot (Space.dropTf sp y) y) y H) ∧
      ∃ evs, vm'.calls = vm.calls ++ evs := by
  have h := hp.inv
  -- both pages are managed pages of `y`, so neither is `0`
  have htf0 : p.trapframe ≠ 0 := (h.owned (.tf y) _ htf).1.ne_zero hend
  have hpt0 : p.pagetable ≠ 0 := hp.pagetable_ne_zero hend
  -- the trapframe: from `y` to the call, then to the allocator
  obtain ⟨h1, htf1, -⟩ := h.dropTf htf
  obtain ⟨vm2, hfree2, h2, hmem2, hfl2, -⟩ := h1.kfree_held htf1
  obtain ⟨k, -, hvm2⟩ := Vm.kfree_eq_ok hfree2
  have hc2 : vm2.calls = vm.calls ++ [.kfree p.trapframe] := by rw [hvm2]
  -- the tree, whose leaves are the trampoline's, the trapframe's and those below `sz`
  have hy1 : (Space.dropTf sp y y).root = some p.pagetable := by simpa using hp.root
  obtain ⟨vm3, hpf, h3, hfreed, hgrow, honly, -, hoth, -⟩ :=
    h2.procFreepagetable hy1 p.sz (PGROUNDUP_le_of_mod TRAPFRAME_mod hp.sz_le)
      (by rw [hmem2]; exact hp.below)
  refine ⟨vm3, by simp [Xv6.freeprocMem, htf0, hpt0, hfree2, hpf], h3,
    fun z r hz i j k hi hj hk hS => ?_, fun H => ?_,
    calls_trans ⟨_, hc2⟩ (procFreepagetable_calls hpf)⟩
  · have hzy : z ≠ y := fun e => hS e trivial
    rw [hoth z r hzy (by simpa using hz) i j k hi hj hk, hmem2]
  · rw [Pool.dropTf htf, Pool.kfree hmem2 hfl2 fun b => Iff.rfl,
      Pool.dropRoot_freed hfreed hgrow honly]

/-- A page `kalloc` gives out, made the trapframe of the holder `y`: the memory of `y` keeps
`UserMem`. -/
theorem UserMem.kallocTf (hp : UserMem «end» k0 vm sp y p) (hz : vm.kalloc.2 ≠ 0) :
    UserMem «end» k0 vm.kalloc.1 (Space.setTf sp y vm.kalloc.2) y
      { p with trapframe := vm.kalloc.2 } := by
  obtain ⟨h1, -, hheld⟩ := hp.inv.kalloc hend
  refine ⟨h1.giveTf (hheld hz).1 y, by simpa using hp.root, hp.sz_le, ?_⟩
  rw [Vm.kalloc_mem]
  exact hp.below

end Free

/-- `UserMem` reads only the page table and the size of the process. -/
theorem UserMem.of_proc {ι : Type} {«end» : Nat} {k0 : Kmem} {vm : Vm} {sp : ι → Space} {y : ι}
    {p q : Proc} (hp : UserMem «end» k0 vm sp y p) (hpt : q.pagetable = p.pagetable)
    (hsz : q.sz = p.sz) : UserMem «end» k0 vm sp y q :=
  ⟨hp.inv, hpt ▸ hp.root, hsz ▸ hp.sz_le, hpt ▸ hsz ▸ hp.below⟩

/-! ## `kwait`

The holders are the slots of the process table. -/

section Wait

variable {«end» : Nat} {k0 : Kmem} {vm : Vm}

/-- The memory side of the scan of `kwait` makes the search of the table side (`kwaitLoop_eq`):
the first `ZOMBIE` child among the slots `l` has its memory freed, unless the copy of its status
failed. -/
theorem kwaitMemLoop_eq (t : PTable) (p : Fin NPROC) (addr : Nat) (ok : Bool)
    (l : List (Fin NPROC)) :
    kwaitMemLoop «end» t p addr ok l vm =
      match l.find? (fun c => decide (t.ZombieChild p c)) with
      | some c => if addr ≠ 0 ∧ !ok then .ok vm else freeprocMem «end» (t.proc c) vm
      | none => .ok vm := by
  induction l with
  | nil => rfl
  | cons c rest ih =>
    -- the condition of the source, which is `t.ZombieChild p c`
    by_cases hzc : (t.proc c).parent = some p ∧ (t.proc c).state = .ZOMBIE
    · rw [kwaitMemLoop, if_pos hzc,
        List.find?_cons_of_pos (p := fun c => decide (t.ZombieChild p c)) (decide_eq_true hzc)]
    · rw [kwaitMemLoop, if_neg hzc, ih,
        List.find?_cons_of_neg (p := fun c => decide (t.ZombieChild p c))
          fun h => hzc (of_decide_eq_true h)]

/-- The two sides of `kwait` find the same child. Either nothing is freed, because the copy of
the status to a nonzero `addr` failed or no child is a `ZOMBIE`, and the table is as it was or
has `p` asleep; or the first `ZOMBIE` child `c` is freed on both sides. -/
theorem kwaitMem_cases (t : PTable) (p : Fin NPROC) (addr : Nat) (ok : Bool) (vm : Vm) :
    (kwaitMem «end» t p addr ok vm = .ok vm ∧ ((addr ≠ 0 ∧ ok = false) ∨ ∀ c, ¬t.ZombieChild p c) ∧
        ((kwait t p addr ok).1 = t ∨ (kwait t p addr ok).1 = sleep t p (.proc p))) ∨
      ∃ c, t.ZombieChild p c ∧ (addr = 0 ∨ ok = true) ∧
        kwaitMem «end» t p addr ok vm = freeprocMem «end» (t.proc c) vm ∧
        kwait t p addr ok = (freeproc t c, some (t.proc c).pid,
          if addr ≠ 0 then some (t.proc c).xstate else none) := by
  have hmem : kwaitMemLoop «end» t p addr ok slots vm = _ := kwaitMemLoop_eq t p addr ok slots
  have htbl := kwaitLoop_eq p addr ok slots false t
  rw [kwaitMem]
  cases hf : slots.find? (fun c => decide (t.ZombieChild p c)) with
  | none =>
    -- no `ZOMBIE` child: nothing is freed, and `p` may go to sleep
    have hnz : ∀ c, ¬t.ZombieChild p c := fun c hc => by
      simpa [hc] using List.find?_eq_none.mp hf c (List.mem_finRange c)
    refine .inl ⟨by rw [hmem, hf], .inr hnz, ?_⟩
    rcases kwait_cases t p addr ok with ⟨c, hc, -⟩ | ⟨-, -, h⟩ | ⟨-, -, -, h⟩
    · exact absurd hc (hnz c)
    · exact .inl (by rw [h])
    · exact .inr (by rw [h])
  | some c =>
    have hc : t.ZombieChild p c := by simpa using List.find?_some hf
    rw [kwait, htbl, hf]
    by_cases hfail : addr ≠ 0 ∧ !ok
    · -- the copy failed: the child stays
      exact .inl ⟨by rw [hmem, hf]; exact if_pos hfail, .inl ⟨hfail.1, by simpa using hfail.2⟩,
        .inl (congrArg Prod.fst (if_pos hfail))⟩
    · have hcopy : addr = 0 ∨ ok = true := by
        by_cases ha : addr = 0
        · exact .inl ha
        · exact .inr (by simpa [ha] using hfail)
      exact .inr ⟨c, hc, hcopy, by rw [hmem, hf]; exact if_neg hfail, if_neg hfail⟩

variable (hend : KERNBASE ≤ «end»)
include hend

/-- One pass of `kwait(addr)` by `p`, where each `ZOMBIE` child `c` of `p` is a holder whose
memory keeps `UserMem` and which owns its trapframe page: `kwait` cannot panic, and either it
frees nothing (the copy of the status to a nonzero `addr` failed, or no child is a `ZOMBIE`),
or the child the table side frees is the one whose memory goes back, all of it: its trapframe,
user pages and page-table pages join the free list, which gains nothing else, and no leaf of
another process moves. -/
theorem kwait_frees_child_memory {t : PTable} {p : Fin NPROC} (addr : Nat) (ok : Bool)
    {sp : Fin NPROC → Space}
    (hchild : ∀ c, t.ZombieChild p c →
      UserMem «end» k0 vm sp c (t.proc c) ∧ (sp c).tf = some (t.proc c).trapframe) :
    ∃ vm', kwaitMem «end» t p addr ok vm = .ok vm' ∧
      ((vm' = vm ∧ ((addr ≠ 0 ∧ ok = false) ∨ ∀ c, ¬t.ZombieChild p c)) ∨
        ∃ c, t.ZombieChild p c ∧ (addr = 0 ∨ ok = true) ∧
          kwait t p addr ok = (freeproc t c, some (t.proc c).pid,
            if addr ≠ 0 then some (t.proc c).xstate else none) ∧
          VmInv «end» k0 vm' (Space.dropRoot (Space.dropTf sp c) c) ∧
          LeavesOut vm vm' sp c (fun _ => True) ∧
          ∀ b, b ∈ vm'.kmem.freelist ↔ b ∈ vm.kmem.freelist ∨ OfHolder vm.mem sp c b) := by
  rcases kwaitMem_cases t p addr ok vm with ⟨hmem, hwhy, -⟩ | ⟨c, hc, hcopy, hmem, htbl⟩
  · -- nothing is freed
    exact ⟨vm, hmem, .inl ⟨rfl, hwhy⟩⟩
  · obtain ⟨hp, htf⟩ := hchild c hc
    obtain ⟨vm', hfree, h', hout, hpool, -⟩ := hp.freeproc hend htf
    -- the child has nothing left, so its pool is the free list
    have hfl : ∀ b, b ∈ vm'.kmem.freelist ↔ b ∈ vm.kmem.freelist ∨ OfHolder vm.mem sp c b := by
      intro b
      have hempty : Pool vm' (Space.dropRoot (Space.dropTf sp c) c) c (fun _ => False) b ↔
          b ∈ vm'.kmem.freelist := pool_empty (Space.dropRoot_dropTf_self sp c) b
      rw [← hempty, ← congrFun (hpool fun _ => False) b]
      simp only [Pool, or_false]
    exact ⟨vm', hmem.trans hfree, .inr ⟨c, hc, hcopy, htbl, h', hout, hfl⟩⟩

end Wait

/-- With two pages free, `kalloc` finds one for `uvmcreate` and one more after it. -/
theorem uvmcreate_kalloc_ne_zero {«end» : Nat} (hend : KERNBASE ≤ «end») {k0 : Kmem}
    (hinv : KmemInv «end» k0) {a b : Nat} (ha : a ∈ k0.freelist) (hb : b ∈ k0.freelist)
    (hab : a ≠ b) : (Xv6.uvmcreate ⟨k0, fun _ _ => 0, []⟩).2.kalloc.2 ≠ 0 := by
  have hz : (Vm.kalloc ⟨k0, fun _ _ => 0, []⟩).2 ≠ 0 :=
    Vm.kalloc_ne_zero hend hinv (List.ne_nil_of_mem ha)
  have hfl : k0.freelist = _ := Vm.kalloc_freelist hz
  rw [uvmcreate_snd hz]
  apply Vm.kalloc_ne_zero hend
  · rw [Vm.zero_kmem]
    exact hinv.kalloc hend
  · -- `kalloc` took one of the two
    rw [Vm.zero_kmem]
    intro hnil
    rw [hfl, hnil, List.mem_singleton] at ha hb
    exact hab (ha.trans hb.symm)

/-- A child in slot `1` of `initproc`, a `ZOMBIE` whose page table `uvmcreate` made out of the
first free page and whose trapframe is the next one: as the holder of its slot, it keeps `UserMem`
and owns its trapframe. -/
theorem zombie_of_two_pages {«end» : Nat} (hend : KERNBASE ≤ «end») {k0 : Kmem}
    (hinv : KmemInv «end» k0) {a b : Nat} (ha : a ∈ k0.freelist) (hb : b ∈ k0.freelist)
    (hab : a ≠ b) :
    let pt := Xv6.uvmcreate ⟨k0, fun _ _ => 0, []⟩
    let y : Fin NPROC := ⟨1, by decide⟩
    let sp := Space.setTf (Space.setRoot (fun _ : Fin NPROC => ⟨none, none⟩) y pt.1) y
      pt.2.kalloc.2
    let t := PTable.zero.set y
      { Proc.zero with
        parent := some initproc, state := .ZOMBIE, pagetable := pt.1, trapframe := pt.2.kalloc.2 }
    ∀ c, t.ZombieChild initproc c → UserMem «end» k0 pt.2.kalloc.1 sp c (t.proc c) ∧
      (sp c).tf = some (t.proc c).trapframe := by
  intro pt y sp t c hc
  by_cases hcy : c = y
  · subst hcy
    have hp := (userMem_uvmcreate hend hinv ha y (by decide : 0 ≤ TRAPFRAME)).kallocTf hend
      (uvmcreate_kalloc_ne_zero hend hinv ha hb hab)
    exact ⟨hp.of_proc (by simp [t, pt]) (by simp [t, Proc.zero]), by simp [sp, t, Space.setTf]⟩
  · -- every other slot is `UNUSED`
    have hz : t.proc c = Proc.zero := by simp [t, hcy, PTable.zero]
    simp [PTable.ZombieChild, hz, Proc.zero] at hc

/-- The child of `zombie_of_two_pages`, after `kinit`. -/
theorem zombie_after_kinit :
    let k0 := (kinit 0x80021000).getD Kmem.boot
    let pt := Xv6.uvmcreate ⟨k0, fun _ _ => 0, []⟩
    let y : Fin NPROC := ⟨1, by decide⟩
    let sp := Space.setTf (Space.setRoot (fun _ : Fin NPROC => ⟨none, none⟩) y pt.1) y
      pt.2.kalloc.2
    let t := PTable.zero.set y
      { Proc.zero with
        parent := some initproc, state := .ZOMBIE, pagetable := pt.1, trapframe := pt.2.kalloc.2 }
    ∀ c, t.ZombieChild initproc c → UserMem 0x80021000 k0 pt.2.kalloc.1 sp c (t.proc c) ∧
      (sp c).tf = some (t.proc c).trapframe := by
  intro k0
  obtain ⟨s0, hs0, hinv, hall⟩ := kinit_spec 0x80021000
  have hk0 : k0 = s0 := by simp only [k0, hs0, Option.getD_some]
  rw [← hk0] at hinv hall
  -- `kinit` freed every managed page, so two of them are free
  exact zombie_of_two_pages (by decide) hinv (hall 0x80021000 (by decide))
    (hall 0x80022000 (by decide)) (by decide)

/-- A `kwait` by `initproc` whose child in slot `1` is a `ZOMBIE` with an empty page table and a
trapframe, the first two pages `kalloc` gave out after `kinit`. -/
theorem kwait_frees_child_memory_first_pages :
    let k0 := (kinit 0x80021000).getD Kmem.boot
    let pt := Xv6.uvmcreate ⟨k0, fun _ _ => 0, []⟩
    let y : Fin NPROC := ⟨1, by decide⟩
    let sp := Space.setTf (Space.setRoot (fun _ : Fin NPROC => ⟨none, none⟩) y pt.1) y
      pt.2.kalloc.2
    let t := PTable.zero.set y
      { Proc.zero with
        parent := some initproc, state := .ZOMBIE, pagetable := pt.1, trapframe := pt.2.kalloc.2 }
    KERNBASE ≤ 0x80021000 ∧
      (∀ c, t.ZombieChild initproc c → UserMem 0x80021000 k0 pt.2.kalloc.1 sp c (t.proc c) ∧
        (sp c).tf = some (t.proc c).trapframe) ∧
      ∃ vm', kwaitMem 0x80021000 t initproc 0x3fa0 true pt.2.kalloc.1 = .ok vm' ∧
        ((vm' = pt.2.kalloc.1 ∧ ((0x3fa0 ≠ 0 ∧ true = false) ∨ ∀ c, ¬t.ZombieChild initproc c)) ∨
          ∃ c, t.ZombieChild initproc c ∧ (0x3fa0 = 0 ∨ true = true) ∧
            kwait t initproc 0x3fa0 true = (freeproc t c, some (t.proc c).pid,
              if 0x3fa0 ≠ 0 then some (t.proc c).xstate else none) ∧
            VmInv 0x80021000 k0 vm' (Space.dropRoot (Space.dropTf sp c) c) ∧
            LeavesOut pt.2.kalloc.1 vm' sp c (fun _ => True) ∧
            ∀ b, b ∈ vm'.kmem.freelist ↔
              b ∈ pt.2.kalloc.1.kmem.freelist ∨ OfHolder pt.2.kalloc.1.mem sp c b) :=
  -- in term mode, so that the kernel meets the state only as written, and never runs `kinit`
  have hend : KERNBASE ≤ 0x80021000 := by decide
  ⟨hend, zombie_after_kinit, kwait_frees_child_memory hend 0x3fa0 true zombie_after_kinit⟩

end Xv6
