import Xv6.ProcMem
import Xv6.Proofs.VmMap
import Xv6.Proofs.VmProc

/-!
# `growproc` and `sys_sbrk`

`sys_sbrk(n, t)` grows or shrinks the memory of the running process `p` by the `int` `n`:
through `growproc` and `uvmalloc` when `t` is `SBRK_EAGER`, by raising `p->sz` alone otherwise,
and through `growproc` and `uvmdealloc` whenever `n` is negative. The arithmetic is `uint64`: a
negative `n` is sign-extended, so that an `sz + n` below `0` wraps around to above `sz`, and
`uvmdealloc` then keeps `sz`.

`UserMem` is the invariant of a process's memory: the ownership invariant of all trees, `p`'s
page table the tree of its holder, `p->sz` at most `TRAPFRAME`, and no user leaf at or above
`PGROUNDUP(p->sz)`. `sys_sbrk` keeps it, and fails only above `TRAPFRAME` or when an eager
`sbrk` runs out of memory, giving back what it took (`sbrk_arithmetic`).
-/

namespace Xv6

section Sbrk

variable {ι : Type} [DecidableEq ι]

/-- The memory of the process `p`, whose page table is the tree of the holder `x`. -/
structure UserMem («end» : Nat) (k0 : Kmem) (vm : Vm) (sp : ι → Space) (x : ι) (p : Proc) :
    Prop where
  inv : VmInv «end» k0 vm sp
  root : (sp x).root = some p.pagetable
  sz_le : p.sz ≤ TRAPFRAME
  below : LeavesBelow vm.mem p.pagetable (PGROUNDUP p.sz)

/-- The pages `[a, b)` of the tree below `r` of `x` map pages that were free and are now zero,
readable, writable and user-accessible; no other leaf of any tree moved. -/
def MapsFresh (vm vm' : Vm) (sp : ι → Space) (x : ι) (r a b : Nat) : Prop :=
  (∀ v, v % PGSIZE = 0 → a ≤ v → v < b → ∃ pa, pa ∈ vm.kmem.freelist ∧
      vm'.mem pa = (fun _ => 0) ∧
      leafAt vm'.mem r v = some (PA2PTE pa ||| (PTE_R ||| PTE_U ||| PTE_W) ||| PTE_V)) ∧
    LeavesOut vm vm' sp x fun v => a ≤ v ∧ v < b

/-- The pages `[a, b)` of the tree below `r` of `x` are no longer mapped, and each page a leaf
there mapped is free; no other leaf of any tree moved. -/
def Unmaps (vm vm' : Vm) (sp : ι → Space) (x : ι) (r a b : Nat) : Prop :=
  (∀ v, v % PGSIZE = 0 → a ≤ v → v < b → leafAt vm'.mem r v = none ∧
      ∀ w, leafAt vm.mem r v = some w → PTE2PA w ∈ vm'.kmem.freelist) ∧
    LeavesOut vm vm' sp x fun v => a ≤ v ∧ v < b

/-- A failed `sys_sbrk(n, t)` by `p`: no leaf of any tree moved, every page taken is given back
but page-table pages, and `sz + n` was above `TRAPFRAME` or an eager `sbrk` ran out of memory. -/
structure SbrkFailed (vm vm' : Vm) (sp : ι → Space) (x : ι) (p : Proc) (n t : Int) : Prop where
  leaves : LeavesOut vm vm' sp x fun _ => False
  gaveBack : GaveBack vm vm' sp x
  cause : TRAPFRAME < p.sz + n ∨ t = SBRK_EAGER ∧ RanOut vm vm'

/-- A `sys_sbrk(n, t)` by `p` that returned the old size, leaving `q`. -/
structure SbrkDone (vm vm' : Vm) (sp : ι → Space) (x : ι) (p q : Proc) (n t : Int) : Prop where
  le : p.sz + n ≤ TRAPFRAME
  /-- The size is `sz + n`, or stays when `sz + n` is negative. -/
  size : q.sz = if p.sz + n < 0 then p.sz else (p.sz + n).toNat
  /-- Eager growth maps fresh zeroed pages from `PGROUNDUP(sz)` up to `PGROUNDUP(sz + n)`. -/
  eager : t = SBRK_EAGER → 0 < n →
    MapsFresh vm vm' sp x p.pagetable (PGROUNDUP p.sz) (PGROUNDUP q.sz) ∧
      Grew vm vm' sp x fun n => n.isNode = false
  /-- Lazy growth touches no memory. -/
  lazy : n = 0 ∨ 0 < n ∧ t ≠ SBRK_EAGER → vm' = vm
  /-- Shrinking unmaps and frees the pages from `PGROUNDUP(sz + n)` up to `PGROUNDUP(sz)`. -/
  shrink : n < 0 →
    Unmaps vm vm' sp x p.pagetable (PGROUNDUP q.sz) (PGROUNDUP p.sz) ∧ Released vm vm' sp x

theorem PGROUNDUP_mono {a b : Nat} (h : a ≤ b) : PGROUNDUP a ≤ PGROUNDUP b := by
  unfold PGROUNDUP
  exact Nat.mul_le_mul_right _ (Nat.div_le_div_right (by omega))

theorem TRAPFRAME_mod : TRAPFRAME % PGSIZE = 0 := by decide

variable {«end» : Nat} {k0 : Kmem} {vm vm' : Vm} {sp : ι → Space} {x : ι} {r : Nat}

/-- A tree whose leaves of `[b, TRAPFRAME)` are missing before and after a change there kept
every leaf. -/
theorem LeavesOut.of_below {S : Nat → Prop} (hout : LeavesOut vm vm' sp x S)
    (hx : (sp x).root = some r) {b : Nat} (hS : ∀ v, S v → b ≤ v ∧ v < TRAPFRAME)
    (hb : LeavesBelow vm.mem r b) (hb' : LeavesBelow vm'.mem r b) :
    LeavesOut vm vm' sp x fun _ => False := by
  intro y r' hy i j k hi hj hk _
  by_cases hyx : y = x
  · subst hyx
    rw [hx, Option.some.injEq] at hy
    subst hy
    by_cases hSv : S (vaOf i j k)
    · obtain ⟨hlo, htf⟩ := hS _ hSv
      rw [← leafAt_vaOf _ _ hi hj hk, ← leafAt_vaOf _ _ hi hj hk,
        hb.leafAt_eq_none (vaOf_mod i j k) hlo htf, hb'.leafAt_eq_none (vaOf_mod i j k) hlo htf]
    · exact hout y r hx i j k hi hj hk fun _ => hSv
  · exact hout y r' hy i j k hi hj hk fun e => absurd e hyx

omit [DecidableEq ι] in
/-- A page whose leaf went away while the tree of `x` only released pages is free. -/
theorem Released.free_of_unmapped (hrel : Released vm vm' sp x) (hx : (sp x).root = some r)
    {v w : Nat} (hv : v % PGSIZE = 0) (htf : v < TRAPFRAME) (hw : leafAt vm.mem r v = some w)
    (hnone : leafAt vm'.mem r v = none) : PTE2PA w ∈ vm'.kmem.freelist := by
  rcases hrel.1 _ _ (pageAt_leafAt hx hv htf hw) with hkept | hfree
  · rw [pageAt_leafAt_none hx hnone] at hkept
    cases hkept
  · exact hfree

/-- `uvmdealloc(pagetable, oldsz, newsz)`, read as the unmapping of the pages from its result up
to `oldsz`. -/
theorem VmInv.uvmdealloc_unmaps (h : VmInv «end» k0 vm sp) (hx : (sp x).root = some r)
    (oldsz newsz : Nat) (hold : PGROUNDUP oldsz ≤ TRAPFRAME) :
    ∃ vm', Xv6.uvmdealloc «end» r oldsz newsz vm =
        .ok (if oldsz ≤ newsz then oldsz else newsz, vm') ∧ VmInv «end» k0 vm' sp ∧
      Unmaps vm vm' sp x r (PGROUNDUP (if oldsz ≤ newsz then oldsz else newsz))
        (PGROUNDUP oldsz) ∧
      HeldKept «end» vm vm' sp ∧ Released vm vm' sp x := by
  obtain ⟨vm', hrun, h', hnone, hout, hk, hrel⟩ := h.uvmdealloc hx oldsz newsz hold
  have hfree : ∀ v, v % PGSIZE = 0 → PGROUNDUP newsz ≤ v → v < PGROUNDUP oldsz →
      ∀ w, leafAt vm.mem r v = some w → PTE2PA w ∈ vm'.kmem.freelist := fun v hv h1 h2 w hw =>
    hrel.free_of_unmapped hx hv (by omega) hw (hnone v hv h1 h2)
  refine ⟨vm', hrun, h', ⟨?_, ?_⟩, hk, hrel⟩
  · split_ifs with hle
    · exact fun v _ h1 h2 => absurd h2 (by omega)
    · exact fun v hv h1 h2 => ⟨hnone v hv h1 h2, hfree v hv h1 h2⟩
  · split_ifs with hle
    · -- nothing was unmapped: the rounded range is empty
      have hup := PGROUNDUP_mono hle
      exact hout.mono fun v hv => absurd hv.2 (by omega)
    · exact hout

omit [DecidableEq ι] in
/-- The bound on the leaves after an unmapping of the pages from `a` up to the old bound. -/
theorem LeavesBelow.of_unmaps {a b : Nat} (hb : LeavesBelow vm.mem r b)
    (hu : Unmaps vm vm' sp x r a b) (hx : (sp x).root = some r) (htf : b ≤ TRAPFRAME) :
    LeavesBelow vm'.mem r a := by
  have hT : TRAPFRAME < MAXVA := by decide
  have hb' : LeavesBelow vm'.mem r b := hb.of_out hu.2 hx le_rfl fun v _ hv =>
    ⟨by omega, fun _ => .inr (.inr hv.2)⟩
  exact hb'.lower fun v hv h1 h2 => (hu.1 v hv h1 h2).1

/-! ## `growproc` -/

section Grow

variable (hend : KERNBASE ≤ «end»)
include hend

/-- `growproc(n)` for a positive `n`: above `TRAPFRAME` it fails at once; otherwise `uvmalloc`
maps fresh zeroed pages up to `PGROUNDUP(sz + n)`, or runs out of memory and gives back what it
took, leaving the leaves as they were. -/
theorem UserMem.growproc_pos {p : Proc} (hp : UserMem «end» k0 vm sp x p) {n : Int} (hn : 0 < n) :
    ∃ res q vm', growproc «end» p n vm = .ok (res, q, vm') ∧ UserMem «end» k0 vm' sp x q ∧
      HeldKept «end» vm vm' sp ∧
      ((res = 0 ∧ q = { p with sz := p.sz + n.toNat } ∧ p.sz + n.toNat ≤ TRAPFRAME ∧
          MapsFresh vm vm' sp x p.pagetable (PGROUNDUP p.sz) (PGROUNDUP q.sz) ∧
          Grew vm vm' sp x fun n => n.isNode = false) ∨
        (res = -1 ∧ q = p ∧ LeavesOut vm vm' sp x (fun _ => False) ∧ GaveBack vm vm' sp x ∧
          (TRAPFRAME < p.sz + n.toNat ∨ RanOut vm vm'))) := by
  by_cases hbig : TRAPFRAME < p.sz + n.toNat
  · refine ⟨-1, p, vm, by simp [growproc, hn, hbig], hp, HeldKept.refl vm sp,
      .inr ⟨rfl, rfl, (LeavesKept.refl vm sp).out x _, (Released.of_pageAt x rfl rfl).gaveBack,
        .inl hbig⟩⟩
  have hroom : PGROUNDUP p.sz ≤ TRAPFRAME ∧ PGROUNDUP (p.sz + n.toNat) ≤ TRAPFRAME :=
    ⟨PGROUNDUP_le_of_mod TRAPFRAME_mod hp.sz_le, PGROUNDUP_le_of_mod TRAPFRAME_mod (by omega)⟩
  obtain ⟨sz, vm', hrun, h', hk, hcase⟩ :=
    hp.inv.uvmalloc hend hp.root p.sz (p.sz + n.toNat) PTE_W (by decide) hp.below (.inl hroom)
  have hgrow : growproc «end» p n vm =
      if sz = 0 then .ok (-1, p, vm') else .ok (0, { p with sz := sz }, vm') := by
    simp only [growproc, if_pos hn, if_neg hbig, hrun, Loop.ok_bind]
    split_ifs <;> rfl
  rcases hcase with ⟨hsz, hle, hb', hmapped, hout, hgrew⟩ | ⟨hsz, hb', hout, hgave, hran⟩
  · have hsz' : sz = p.sz + n.toNat := by omega
    rw [if_neg (by omega)] at hgrow
    refine ⟨0, { p with sz := sz }, vm', hgrow,
      ⟨h', hp.root, show sz ≤ TRAPFRAME by omega, hb'⟩, hk,
      .inl ⟨rfl, by rw [hsz'], by omega, ⟨hmapped, hout⟩, hgrew⟩⟩
  · rw [if_pos hsz] at hgrow
    have hleaves := hout.of_below hp.root (fun v hv => hv) hp.below hb'
    exact ⟨-1, p, vm', hgrow, ⟨h', hp.root, hp.sz_le, hb'⟩, hk,
      .inr ⟨rfl, rfl, hleaves, hgave, .inr hran⟩⟩

end Grow

/-- `growproc(n)` for any negative `n`: `uvmdealloc(pagetable, sz, sz + n)`, the sum in `uint64`,
unmaps and frees the pages from the new size up, which is at most the old one. -/
theorem UserMem.growproc_shrink {p : Proc} (hp : UserMem «end» k0 vm sp x p) {n : Int}
    (hn : n < 0) :
    ∃ q vm', growproc «end» p n vm = .ok (0, q, vm') ∧ UserMem «end» k0 vm' sp x q ∧
      q = { p with sz := q.sz } ∧ HeldKept «end» vm vm' sp ∧
      q.sz = (if p.sz ≤ ((p.sz + n) % 2 ^ 64).toNat then p.sz else ((p.sz + n) % 2 ^ 64).toNat) ∧
      Unmaps vm vm' sp x p.pagetable (PGROUNDUP q.sz) (PGROUNDUP p.sz) ∧
      Released vm vm' sp x := by
  -- the new size `sz + n`, in `uint64`
  generalize hN : ((p.sz + n) % 2 ^ 64).toNat = N
  obtain ⟨vm', hrun, h', hun, hk, hrel⟩ := hp.inv.uvmdealloc_unmaps hp.root p.sz N
    (PGROUNDUP_le_of_mod TRAPFRAME_mod hp.sz_le)
  have hb' := hp.below.of_unmaps hun hp.root (PGROUNDUP_le_of_mod TRAPFRAME_mod hp.sz_le)
  refine ⟨{ p with sz := if p.sz ≤ N then p.sz else N }, vm', ?_,
    ⟨h', hp.root, ?_, hb'⟩, rfl, hk, rfl, hun, hrel⟩
  · simp only [growproc, if_neg (show ¬ 0 < n by omega), if_pos hn, hN, hrun, Loop.ok_bind]
    rfl
  · have := hp.sz_le
    dsimp only
    split_ifs <;> omega

/-- `growproc(n)` for a negative `int` `n`: `uvmdealloc(pagetable, sz, sz + n)` unmaps and frees
the pages from `PGROUNDUP(sz + n)` up, and keeps `sz` when `sz + n` wraps around. -/
theorem UserMem.growproc_neg {p : Proc} (hp : UserMem «end» k0 vm sp x p) {n : Int} (hn : n < 0)
    (hlo : -2 ^ 31 ≤ n) :
    ∃ q vm', growproc «end» p n vm = .ok (0, q, vm') ∧ UserMem «end» k0 vm' sp x q ∧
      q = { p with sz := q.sz } ∧ HeldKept «end» vm vm' sp ∧
      q.sz = (if p.sz + n < 0 then p.sz else (p.sz + n).toNat) ∧
      Unmaps vm vm' sp x p.pagetable (PGROUNDUP q.sz) (PGROUNDUP p.sz) ∧
      Released vm vm' sp x := by
  have hsz : p.sz ≤ TRAPFRAME := hp.sz_le
  have hT : TRAPFRAME = 2 ^ 38 - 2 * 4096 := TRAPFRAME_eq
  -- the size `uvmdealloc` returns: `sz + n`, or `sz` when `sz + n` wrapped around
  have hnew : (if p.sz ≤ ((p.sz + n) % 2 ^ 64).toNat then p.sz else ((p.sz + n) % 2 ^ 64).toNat) =
      if p.sz + n < 0 then p.sz else (p.sz + n).toNat := by
    split_ifs <;> omega
  obtain ⟨q, vm', hg, hq, hqp, hk, hqsz, hun, hrel⟩ := hp.growproc_shrink hn
  rw [hnew] at hqsz
  exact ⟨q, vm', hg, hq, hqp, hk, hqsz, hun, hrel⟩

/-! ## `sys_sbrk` -/

/-- `sys_sbrk(n, t)` where it calls `growproc(n)`: `-1` when `growproc` failed, else the old
size. -/
theorem sysSbrk_of_growproc {p q : Proc} {n t res : Int} (hmode : t = SBRK_EAGER ∨ n < 0)
    (hg : growproc «end» p n vm = .ok (res, q, vm')) :
    sysSbrk «end» p n t vm = .ok (if res < 0 then -1 else p.sz, q, vm') := by
  simp only [sysSbrk, if_pos hmode, hg, Loop.ok_bind]
  split_ifs <;> rfl

/-- `sys_sbrk(n, t)` for every `int` `n` and mode `t`, by a process whose memory keeps
`UserMem`: it cannot panic and keeps the invariant. It either fails with `-1`, moving no leaf
and giving back every page it took but page-table pages, or returns the old size with the size
now `sz + n` (kept when `sz + n` is negative) and the pages mapped or freed as the mode says. -/
theorem sbrk_arithmetic (hend : KERNBASE ≤ «end») {p : Proc} (hp : UserMem «end» k0 vm sp x p)
    {n : Int} (hn : -2 ^ 31 ≤ n ∧ n < 2 ^ 31) (t : Int) :
    ∃ res q vm', sysSbrk «end» p n t vm = .ok (res, q, vm') ∧
      UserMem «end» k0 vm' sp x q ∧ HeldKept «end» vm vm' sp ∧
      (res = -1 ∧ q = p ∧ SbrkFailed vm vm' sp x p n t ∨
        res = p.sz ∧ q = { p with sz := q.sz } ∧ SbrkDone vm vm' sp x p q n t) := by
  have hsz : p.sz ≤ TRAPFRAME := hp.sz_le
  have hT : TRAPFRAME = 2 ^ 38 - 2 * 4096 := TRAPFRAME_eq
  by_cases hmode : t = SBRK_EAGER ∨ n < 0
  · rcases lt_trichotomy n 0 with hneg | rfl | hpos
    · -- shrinking, in either mode
      obtain ⟨q, vm', hg, hq, hqp, hk, hqsz, hun, hrel⟩ := hp.growproc_neg hneg hn.1
      refine ⟨p.sz, q, vm', by rw [sysSbrk_of_growproc hmode hg]; rfl, hq, hk,
        .inr ⟨rfl, hqp, by omega, hqsz, fun _ h => absurd h (by omega), fun h => ?_,
          fun _ => ⟨hun, hrel⟩⟩⟩
      rcases h with h | h <;> omega
    · -- no change
      have hg : growproc «end» p 0 vm = .ok (0, p, vm) := by
        simp only [growproc, lt_irrefl, if_false]
        rfl
      refine ⟨p.sz, p, vm, by rw [sysSbrk_of_growproc hmode hg]; rfl, hp, HeldKept.refl vm sp,
        .inr ⟨rfl, rfl, by omega, by split_ifs <;> omega, fun _ h => absurd h (lt_irrefl 0),
          fun _ => rfl, fun h => absurd h (lt_irrefl 0)⟩⟩
    · -- eager growth
      have heager : t = SBRK_EAGER := hmode.resolve_right (by omega)
      have hlazy : ¬ (n = 0 ∨ 0 < n ∧ t ≠ SBRK_EAGER) := by
        rintro (h | ⟨-, h⟩)
        · omega
        · exact h heager
      obtain ⟨res, q, vm', hg, hq, hk, hcase⟩ := hp.growproc_pos hend hpos
      rw [sysSbrk_of_growproc hmode hg]
      rcases hcase with ⟨rfl, rfl, hle, hmaps, hgrew⟩ | ⟨rfl, hqp, hleaves, hgave, hcause⟩
      · refine ⟨p.sz, _, vm', by rw [if_neg (by decide)], hq, hk,
          .inr ⟨rfl, rfl, ⟨by omega, ?_, fun _ _ => ⟨hmaps, hgrew⟩, fun h => absurd h hlazy,
            fun h => absurd h (by omega)⟩⟩⟩
        show p.sz + n.toNat = _
        split_ifs <;> omega
      · refine ⟨-1, q, vm', by rw [if_pos (by decide)], hq, hk,
          .inl ⟨rfl, hqp, hleaves, hgave, ?_⟩⟩
        rcases hcause with hbig | hran
        · exact .inl (by omega)
        · exact .inr ⟨heager, hran⟩
  · -- lazy growth: only the size moves, and `addr + n` cannot wrap around
    have hpos : 0 ≤ n := by omega
    have hlazy : t ≠ SBRK_EAGER := fun h => hmode (.inl h)
    have hwrap : ¬ ((p.sz + n) % 2 ^ 64).toNat < p.sz := by omega
    have hlazy_eq : sysSbrk «end» p n t vm = if TRAPFRAME < p.sz + n.toNat then .ok (-1, p, vm)
        else .ok (p.sz, { p with sz := p.sz + n.toNat }, vm) := by
      simp only [sysSbrk, if_neg hmode, if_neg hwrap]
      split_ifs <;> rfl
    by_cases hbig : TRAPFRAME < p.sz + n.toNat
    · refine ⟨-1, p, vm, by rw [hlazy_eq, if_pos hbig], hp, HeldKept.refl vm sp,
        .inl ⟨rfl, rfl, (LeavesKept.refl vm sp).out x _, (Released.of_pageAt x rfl rfl).gaveBack,
          .inl (by omega)⟩⟩
    · have hq : UserMem «end» k0 vm sp x { p with sz := p.sz + n.toNat } :=
        ⟨hp.inv, hp.root, show p.sz + n.toNat ≤ TRAPFRAME by omega,
          hp.below.mono (PGROUNDUP_mono (Nat.le_add_right _ _))⟩
      refine ⟨p.sz, _, vm, by rw [hlazy_eq, if_neg hbig], hq, HeldKept.refl vm sp,
        .inr ⟨rfl, rfl, ⟨by omega, ?_, fun h => absurd h hlazy, fun _ => rfl,
          fun h => absurd h (by omega)⟩⟩⟩
      show p.sz + n.toNat = _
      split_ifs <;> omega

/-- `sys_sbrk(n, t)` with any `n`, as a step of the system runs it: when it returns, the process it
leaves differs from `p` in its size alone and keeps `UserMem`, and only leaves of `p` moved. -/
theorem UserMem.sysSbrk (hend : KERNBASE ≤ «end») {p q : Proc} (hp : UserMem «end» k0 vm sp x p)
    {n t res : Int} (hrun : Xv6.sysSbrk «end» p n t vm = .ok (res, q, vm')) :
    q = { p with sz := q.sz } ∧ UserMem «end» k0 vm' sp x q ∧
      LeavesOut vm vm' sp x fun _ => True := by
  have hkept := (LeavesKept.refl vm sp).out x fun _ => True
  by_cases hmode : t = SBRK_EAGER ∨ n < 0
  · -- `growproc(n)`: `sys_sbrk` leaves the process it returns
    have hg : ∀ {r₀ : Int} {q₀ : Proc} {vm₀ : Vm}, growproc «end» p n vm = .ok (r₀, q₀, vm₀) →
        q = q₀ ∧ vm' = vm₀ := by
      intro r₀ q₀ vm₀ hg
      rw [sysSbrk_of_growproc hmode hg, Except.ok.injEq, Prod.mk.injEq, Prod.mk.injEq] at hrun
      exact ⟨hrun.2.1.symm, hrun.2.2.symm⟩
    rcases lt_trichotomy n 0 with hneg | rfl | hpos
    · obtain ⟨q₀, vm₀, hg₀, hq₀, hqp, -, -, hun, -⟩ := hp.growproc_shrink hneg
      obtain ⟨rfl, rfl⟩ := hg hg₀
      exact ⟨hqp, hq₀, hun.2.mono fun _ _ => trivial⟩
    · have hg₀ : growproc «end» p 0 vm = .ok (0, p, vm) := by
        simp only [growproc, lt_irrefl, if_false]
        rfl
      obtain ⟨rfl, rfl⟩ := hg hg₀
      exact ⟨rfl, hp, hkept⟩
    · obtain ⟨r₀, q₀, vm₀, hg₀, hq₀, -, hcase⟩ := hp.growproc_pos hend hpos
      obtain ⟨rfl, rfl⟩ := hg hg₀
      rcases hcase with ⟨-, rfl, -, hmaps, -⟩ | ⟨-, rfl, hleaves, -, -⟩
      · exact ⟨rfl, hq₀, hmaps.2.mono fun _ _ => trivial⟩
      · exact ⟨rfl, hq₀, hleaves.mono fun _ h => h.elim⟩
  · -- a lazy `sbrk`: only the size moves, up to `TRAPFRAME`
    simp only [Xv6.sysSbrk, if_neg hmode] at hrun
    split_ifs at hrun with hwrap hbig
    · cases hrun
      exact ⟨rfl, hp, hkept⟩
    · cases hrun
      exact ⟨rfl, hp, hkept⟩
    · cases hrun
      exact ⟨rfl, ⟨hp.inv, hp.root, show p.sz + n.toNat ≤ TRAPFRAME by omega,
        hp.below.mono (PGROUNDUP_mono (Nat.le_add_right _ _))⟩, hkept⟩

/-- `kalloc` gives out a page while the free list is not empty. -/
theorem Vm.kalloc_ne_zero (hend : KERNBASE ≤ «end») {vm : Vm} (hk : KmemInv «end» vm.kmem)
    (hne : vm.kmem.freelist ≠ []) : vm.kalloc.2 ≠ 0 := by
  obtain ⟨pg, next, hl⟩ := List.exists_cons_of_ne_nil hne
  have hpg : Managed «end» pg := hk.free_managed pg (by rw [hl]; exact List.mem_cons_self)
  simp only [Vm.kalloc, kalloc_cons hl]
  exact hpg.ne_zero hend

/-- `uvmcreate()` returns the page `kalloc` gave out. -/
theorem uvmcreate_fst {vm : Vm} (hz : vm.kalloc.2 ≠ 0) : (Xv6.uvmcreate vm).1 = vm.kalloc.2 := by
  simp only [Xv6.uvmcreate, if_neg hz]

omit [DecidableEq ι] in
/-- Before any holder has a tree or a trapframe the invariant is the allocator's. -/
theorem VmInv.empty (hk : KmemInv «end» k0) :
    VmInv «end» k0 ⟨k0, fun _ _ => 0, []⟩ (fun _ : ι => ⟨none, none⟩) where
  kmem := hk
  run := .nil k0
  excl := ⟨fun P _ _ hP => by cases P <;> simp [pageAt] at hP,
    fun P _ hP => by cases P <;> simp [pageAt] at hP⟩
  owned P _ hP := by cases P <;> simp [pageAt] at hP
  interior _ _ hx := by simp at hx

end Sbrk

/-- A process whose page table `uvmcreate` made out of the first free page of an allocator, as
the tree of the holder `x`, with any size up to `TRAPFRAME`: nothing is mapped, so its memory
keeps `UserMem`. -/
theorem userMem_uvmcreate {ι : Type} [DecidableEq ι] {«end» : Nat} (hend : KERNBASE ≤ «end»)
    {k0 : Kmem} (hinv : KmemInv «end» k0) {a : Nat} (ha : a ∈ k0.freelist) (x : ι) {sz : Nat}
    (hsz : sz ≤ TRAPFRAME) :
    let pt := Xv6.uvmcreate ⟨k0, fun _ _ => 0, []⟩
    UserMem «end» k0 pt.2 (Space.setRoot (fun _ : ι => ⟨none, none⟩) x pt.1) x
      { Proc.zero with pagetable := pt.1, sz := sz } := by
  intro pt
  have hz : (Vm.kalloc ⟨k0, fun _ _ => 0, []⟩).2 ≠ 0 :=
    Vm.kalloc_ne_zero hend hinv (List.ne_nil_of_mem ha)
  obtain ⟨pt', vm', heq, -, hcase⟩ := (VmInv.empty (ι := ι) hinv).uvmcreate hend (x := x) rfl
  have hpt : pt = (pt', vm') := heq
  rcases hcase with ⟨hpt0, -⟩ | ⟨-, h', hzero, -⟩
  · exact absurd ((uvmcreate_fst hz).symm.trans ((congrArg Prod.fst heq).trans hpt0)) hz
  simp only [hpt]
  refine ⟨h', by simp [Space.setRoot], hsz, fun i j k _ _ _ hs => ?_⟩
  rw [leafPte_fresh hzero] at hs
  cases hs

/-- A process whose page table is the first page `kalloc` gave out after `kinit`, made empty by
`uvmcreate`, with any size up to `TRAPFRAME`: nothing is mapped, so its memory keeps `UserMem`. -/
theorem userMem_first_table {sz : Nat} (hsz : sz ≤ TRAPFRAME) :
    let k0 := (kinit 0x80021000).getD Kmem.boot
    let pt := Xv6.uvmcreate ⟨k0, fun _ _ => 0, []⟩
    UserMem 0x80021000 k0 pt.2 (Space.setRoot (fun _ : Unit => ⟨none, none⟩) () pt.1) ()
      { Proc.zero with pagetable := pt.1, sz := sz } := by
  intro k0
  obtain ⟨s0, hs0, hinv, hall⟩ := kinit_spec 0x80021000
  have hk0 : k0 = s0 := by simp only [k0, hs0, Option.getD_some]
  rw [← hk0] at hinv hall
  -- `kinit` freed every managed page, so `kalloc` gives one out
  exact userMem_uvmcreate (by decide) hinv (hall 0x80021000 (by decide)) () hsz

/-- The first page of a process whose fresh page table was the first page `kalloc` gave out
after `kinit`, grown eagerly. -/
theorem sbrk_arithmetic_first_page :
    let k0 := (kinit 0x80021000).getD Kmem.boot
    let pt := Xv6.uvmcreate ⟨k0, fun _ _ => 0, []⟩
    let sp := Space.setRoot (fun _ : Unit => ⟨none, none⟩) () pt.1
    let p : Proc := { Proc.zero with pagetable := pt.1 }
    KERNBASE ≤ 0x80021000 ∧ UserMem 0x80021000 k0 pt.2 sp () p ∧
      (-2 ^ 31 ≤ (PGSIZE : Int) ∧ (PGSIZE : Int) < 2 ^ 31) ∧
      ∃ res q vm', sysSbrk 0x80021000 p PGSIZE SBRK_EAGER pt.2 = .ok (res, q, vm') ∧
        UserMem 0x80021000 k0 vm' sp () q ∧ HeldKept 0x80021000 pt.2 vm' sp ∧
        (res = -1 ∧ q = p ∧ SbrkFailed pt.2 vm' sp () p PGSIZE SBRK_EAGER ∨
          res = p.sz ∧ q = { p with sz := q.sz } ∧
            SbrkDone pt.2 vm' sp () p q PGSIZE SBRK_EAGER) :=
  have hend : KERNBASE ≤ 0x80021000 := by decide
  have hn : -2 ^ 31 ≤ (PGSIZE : Int) ∧ (PGSIZE : Int) < 2 ^ 31 := ⟨by decide, by decide⟩
  ⟨hend, userMem_first_table (Nat.zero_le _), hn,
    sbrk_arithmetic hend (userMem_first_table (Nat.zero_le _)) hn SBRK_EAGER⟩

end Xv6
