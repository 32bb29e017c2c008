import Xv6.Proofs.PageTable
import Xv6.Proofs.KallocProofs
import Xv6.Lib.Owners
import Xv6.Lib.Run

/-!
# Who owns each page

The pages the page-table code hands around belong to holders: each holder `x` of an index type
`ι` has a page table (`(sp x).root`) and a trapframe page (`(sp x).tf`), and owns the root,
every page-table page of the tree, every user page a leaf below `TRAPFRAME` maps, and the
trapframe (`pageAt`). In the system the holders are the process slots and one more, for the
table `kexec` and `allocproc` build before it is installed.

`VmInv` says that ownership is exclusive (`Owners.Excl`): no page has two owners and no owned
page is on the free list; that every owned page is a managed page with count `1`; that the
interior entries of every tree point to tables; and that the calls made to the allocator so far
are a run of its contract from `k0`. A call holds the pages it took from `kalloc` and has not
given to anyone (`HeldPage`).

Each lemma here is one step of the page-table code under the invariant.
-/

namespace Xv6

/-- What one holder has: a page table and a trapframe page. -/
structure Space where
  root : Option Nat
  tf : Option Nat

/-- A page of a holder: its trapframe, or the page at a position of its tree. -/
inductive Pos (ι : Type) where
  | tf (x : ι)
  | tbl (x : ι) (n : TPos)
  deriving DecidableEq

/-- The page each holder owns at each position. -/
def pageAt {ι : Type} (mem : Nat → Nat → Nat) (sp : ι → Space) : Pos ι → Option Nat
  | .tf x => (sp x).tf
  | .tbl x n => (sp x).root.bind fun r => tablePage mem r n

section Pages

variable {ι : Type} {mem mem' : Nat → Nat → Nat} {sp : ι → Space}

/-- Only the trees read memory. -/
theorem pageAt_congr (h : ∀ x r, (sp x).root = some r → tablePage mem' r = tablePage mem r) :
    pageAt mem' sp = pageAt mem sp := by
  funext p
  cases p with
  | tf x => rfl
  | tbl x n =>
    simp only [pageAt]
    cases hx : (sp x).root with
    | none => rfl
    | some r => simp [h x r hx]

/-- A change of the tree of `x` alone is a change of what `x` owns. -/
theorem pageAt_update [DecidableEq ι] {x : ι} {r : Nat} {n : TPos} {v : Option Nat} (hx : (sp x).root = some r)
    (hloc : tablePage mem' r = Function.update (tablePage mem r) n v)
    (hoth : ∀ y r', y ≠ x → (sp y).root = some r' → tablePage mem' r' = tablePage mem r') :
    pageAt mem' sp = Function.update (pageAt mem sp) (.tbl x n) v := by
  funext p
  cases p with
  | tf y => simp [pageAt]
  | tbl y n' =>
    by_cases hy : y = x
    · subst hy
      by_cases hn : n' = n
      · subst hn
        simp [pageAt, hx, hloc]
      · have hne : Pos.tbl y n' ≠ .tbl y n := fun e => hn (by cases e; rfl)
        simp [pageAt, hx, hloc, Function.update_of_ne hn, Function.update_of_ne hne]
    · have hne : Pos.tbl y n' ≠ .tbl x n := fun e => hy (by cases e; rfl)
      simp only [pageAt, Function.update_of_ne hne]
      cases hy' : (sp y).root with
      | none => rfl
      | some r' => simp [hoth y r' hy hy']

variable {free : Nat → Prop}

/-- The tree of another holder does not see writes to the pages of `x`'s tree or to pages no
one owns. -/
theorem tablePage_other_of_excl (hex : Owners.Excl (pageAt mem sp) free) {x y : ι}
    {r' : Nat} (hy : (sp y).root = some r') (hxy : y ≠ x)
    (hagree : ∀ p, mem' p ≠ mem p →
      (∃ n, pageAt mem sp (.tbl x n) = some p) ∨ ∀ q, pageAt mem sp q ≠ some p) :
    ∀ n p, n.isNode = true → tablePage mem r' n = some p → mem' p = mem p := by
  intro n p _ hp
  by_contra hne
  have hpy : pageAt mem sp (.tbl y n) = some p := by simp [pageAt, hy, hp]
  rcases hagree p hne with ⟨n', hn'⟩ | hnone
  · exact hxy (by cases hex.inj _ _ p hpy hn'; rfl)
  · exact hnone _ hpy

/-- The nodes of one tree are distinct when ownership is exclusive. -/
theorem nodesInj_of_excl (hex : Owners.Excl (pageAt mem sp) free) {x : ι} {r : Nat}
    (hx : (sp x).root = some r) : NodesInj mem r := by
  intro n n' p _ _ hn hn'
  have := hex.inj (.tbl x n) (.tbl x n') p (by simp [pageAt, hx, hn]) (by simp [pageAt, hx, hn'])
  cases this
  rfl

end Pages

/-- `kfree` only adds to the free list. -/
theorem Vm.kfree_freelist {«end» a : Nat} {vm vm' : Vm} (h : vm.kfree «end» a = .ok vm') {b : Nat}
    (hb : b ∈ vm.kmem.freelist) : b ∈ vm'.kmem.freelist := by
  obtain ⟨k, hk, rfl⟩ := Vm.kfree_eq_ok h
  obtain ⟨-, -, hcase⟩ := kfree_eq_some hk
  rcases hcase with ⟨-, hfl, -⟩ | ⟨-, hfl, -⟩ <;> simp [hfl, hb]

/-- `kalloc` only takes pages off the free list. -/
theorem kalloc_sub {vm : Vm} (b : Nat) (hb : b ∈ vm.kalloc.1.kmem.freelist) :
    b ∈ vm.kmem.freelist := by
  cases hfl : vm.kmem.freelist with
  | nil => simp [Vm.kalloc, kalloc_nil hfl, hfl] at hb
  | cons pg next => simp_all [Vm.kalloc, kalloc_cons hfl]

/-- A `kalloc` that returned a page took it off the head of the free list. -/
theorem Vm.kalloc_freelist {vm : Vm} (hz : vm.kalloc.2 ≠ 0) :
    vm.kmem.freelist = vm.kalloc.2 :: vm.kalloc.1.kmem.freelist := by
  cases hfl : vm.kmem.freelist with
  | nil => simp [Vm.kalloc, kalloc_nil hfl] at hz
  | cons pg next => simp [Vm.kalloc, kalloc_cons hfl]

/-! ## Running out of memory

The allocator's calls are a history (`Vm.calls`): a call ran out of memory when one of the calls
it made was a `kalloc` that returned `0`. -/

/-- The calls made from `vm` to `vm'` come after those of `vm`, and one of them is a `kalloc`
that found no page. -/
def RanOut (vm vm' : Vm) : Prop :=
  ∃ evs, vm'.calls = vm.calls ++ evs ∧ KEvent.kalloc 0 ∈ evs

theorem RanOut.append {vm₁ vm₂ vm₃ : Vm} (h : RanOut vm₁ vm₂) {evs : List KEvent}
    (h' : vm₃.calls = vm₂.calls ++ evs) : RanOut vm₁ vm₃ := by
  obtain ⟨e, he, hin⟩ := h
  exact ⟨e ++ evs, by rw [h', he, List.append_assoc], List.mem_append_left _ hin⟩

theorem RanOut.prepend {vm₁ vm₂ vm₃ : Vm} {evs : List KEvent} (h : vm₂.calls = vm₁.calls ++ evs)
    (h' : RanOut vm₂ vm₃) : RanOut vm₁ vm₃ := by
  obtain ⟨e, he, hin⟩ := h'
  exact ⟨evs ++ e, by rw [he, h, List.append_assoc], List.mem_append_right _ hin⟩

/-! ## The invariant -/

section Inv

variable («end» : Nat) (k0 : Kmem) {ι : Type}

/-- Exclusive ownership of the pages of page tables and trapframes. -/
structure VmInv (vm : Vm) (sp : ι → Space) : Prop where
  kmem : KmemInv «end» vm.kmem
  run : Trace.Run (KStep «end») k0 vm.calls vm.kmem
  excl : Owners.Excl (pageAt vm.mem sp) (· ∈ vm.kmem.freelist)
  owned : ∀ p a, pageAt vm.mem sp p = some a →
    Managed «end» a ∧ vm.kmem.refCounts (getRefIndex a) = 1
  interior : ∀ x r, (sp x).root = some r → Interior vm.mem r

/-- A page in the hands of the running call: taken from `kalloc` and not given to anyone. -/
structure HeldPage (vm : Vm) (sp : ι → Space) (a : Nat) : Prop where
  held : Owners.Held (pageAt vm.mem sp) (· ∈ vm.kmem.freelist) a
  managed : Managed «end» a
  ref : vm.kmem.refCounts (getRefIndex a) = 1

/-- No leaf of any tree moved. -/
def LeavesKept (vm vm' : Vm) (sp : ι → Space) : Prop :=
  ∀ x r, (sp x).root = some r → ∀ i j k, i < 512 → j < 512 →
    leafPte vm'.mem r i j k = leafPte vm.mem r i j k

/-- What the call held, it still holds. -/
def HeldKept (vm vm' : Vm) (sp : ι → Space) : Prop :=
  ∀ b, HeldPage «end» vm sp b → HeldPage «end» vm' sp b

variable {«end» k0}

theorem LeavesKept.refl (vm : Vm) (sp : ι → Space) : LeavesKept vm vm sp :=
  fun _ _ _ _ _ _ _ _ => rfl

theorem LeavesKept.trans {vm₁ vm₂ vm₃ : Vm} {sp : ι → Space} (h₁ : LeavesKept vm₁ vm₂ sp)
    (h₂ : LeavesKept vm₂ vm₃ sp) : LeavesKept vm₁ vm₃ sp :=
  fun x r hx i j k hi hj => (h₂ x r hx i j k hi hj).trans (h₁ x r hx i j k hi hj)

theorem HeldKept.refl (vm : Vm) (sp : ι → Space) : HeldKept «end» vm vm sp := fun _ h => h

theorem HeldKept.trans {vm₁ vm₂ vm₃ : Vm} {sp : ι → Space} (h₁ : HeldKept «end» vm₁ vm₂ sp)
    (h₂ : HeldKept «end» vm₂ vm₃ sp) : HeldKept «end» vm₁ vm₃ sp := fun b hb => h₂ b (h₁ b hb)

/-- No leaf of any tree moved but those of `x` at the addresses `S`. -/
def LeavesOut (vm vm' : Vm) (sp : ι → Space) (x : ι) (S : Nat → Prop) : Prop :=
  ∀ y r, (sp y).root = some r → ∀ i j k, i < 512 → j < 512 → k < 512 →
    (y = x → ¬ S (vaOf i j k)) → leafPte vm'.mem r i j k = leafPte vm.mem r i j k

theorem LeavesKept.out {vm vm' : Vm} {sp : ι → Space} (h : LeavesKept vm vm' sp) (x : ι)
    (S : Nat → Prop) : LeavesOut vm vm' sp x S :=
  fun y r hy i j k hi hj _ _ => h y r hy i j k hi hj

theorem LeavesOut.trans {vm₁ vm₂ vm₃ : Vm} {sp : ι → Space} {x : ι} {S T : Nat → Prop}
    (h₁ : LeavesOut vm₁ vm₂ sp x S) (h₂ : LeavesOut vm₂ vm₃ sp x T) :
    LeavesOut vm₁ vm₃ sp x fun v => S v ∨ T v :=
  fun y r hy i j k hi hj hk hS => (h₂ y r hy i j k hi hj hk fun e hT => hS e (.inr hT)).trans
    (h₁ y r hy i j k hi hj hk fun e hT => hS e (.inl hT))

theorem LeavesOut.mono {vm vm' : Vm} {sp : ι → Space} {x : ι} {S T : Nat → Prop}
    (h : LeavesOut vm vm' sp x S) (hST : ∀ v, S v → T v) : LeavesOut vm vm' sp x T :=
  fun y r hy i j k hi hj hk hT => h y r hy i j k hi hj hk fun e hS => hT e (hST _ hS)

/-- Every page the tree of `x` owned it still owns at the same position, or it is free; and
the free list only grew. -/
def Released (vm vm' : Vm) (sp : ι → Space) (x : ι) : Prop :=
  (∀ n a, pageAt vm.mem sp (.tbl x n) = some a →
    pageAt vm'.mem sp (.tbl x n) = some a ∨ a ∈ vm'.kmem.freelist) ∧
  ∀ b, b ∈ vm.kmem.freelist → b ∈ vm'.kmem.freelist

theorem Released.of_pageAt {vm vm' : Vm} {sp : ι → Space} (x : ι)
    (hpage : pageAt vm'.mem sp = pageAt vm.mem sp) (hk : vm'.kmem = vm.kmem) :
    Released vm vm' sp x :=
  ⟨fun _ _ ha => .inl (hpage ▸ ha), fun _ hb => hk ▸ hb⟩

theorem Released.trans {vm₁ vm₂ vm₃ : Vm} {sp : ι → Space} {x : ι} (h₁ : Released vm₁ vm₂ sp x)
    (h₂ : Released vm₂ vm₃ sp x) : Released vm₁ vm₃ sp x :=
  ⟨fun n a ha => (h₁.1 n a ha).elim (h₂.1 n a) fun h => .inr (h₂.2 a h),
    fun b hb => h₂.2 b (h₁.2 b hb)⟩

/-- The tree of `x` only lost pages, each at its own position, and the free list gained only
pages the tree had. -/
structure Shed (vm vm' : Vm) (sp : ι → Space) (x : ι) : Prop where
  shrink : ∀ n a, pageAt vm'.mem sp (.tbl x n) = some a → pageAt vm.mem sp (.tbl x n) = some a
  only : ∀ b, b ∈ vm'.kmem.freelist → b ∈ vm.kmem.freelist ∨
    ∃ n, pageAt vm.mem sp (.tbl x n) = some b

theorem Shed.of_pageAt {vm vm' : Vm} {sp : ι → Space} (x : ι)
    (hpage : pageAt vm'.mem sp = pageAt vm.mem sp) (hk : vm'.kmem = vm.kmem) :
    Shed vm vm' sp x :=
  ⟨fun _ _ ha => hpage ▸ ha, fun _ hb => .inl (hk ▸ hb)⟩

/-- A position of the tree of `x` let go of its page, and the free list gained only pages the
tree had. -/
theorem Shed.of_update [DecidableEq ι] {vm vm' : Vm} {sp : ι → Space} {x : ι} {P : Pos ι}
    (hpage : pageAt vm'.mem sp = Function.update (pageAt vm.mem sp) P none)
    (honly : ∀ b, b ∈ vm'.kmem.freelist → b ∈ vm.kmem.freelist ∨
      ∃ n, pageAt vm.mem sp (.tbl x n) = some b) : Shed vm vm' sp x := by
  refine ⟨fun n a ha => ?_, honly⟩
  rw [hpage, Function.update_apply] at ha
  split_ifs at ha
  exact ha

theorem Shed.trans {vm₁ vm₂ vm₃ : Vm} {sp : ι → Space} {x : ι} (h₁ : Shed vm₁ vm₂ sp x)
    (h₂ : Shed vm₂ vm₃ sp x) : Shed vm₁ vm₃ sp x :=
  ⟨fun n a ha => h₁.shrink n a (h₂.shrink n a ha), fun b hb =>
    (h₂.only b hb).elim (h₁.only b) fun ⟨n, hn⟩ => .inr ⟨n, h₁.shrink n b hn⟩⟩

/-- The trees only grew: every owned page stays at its position, the free list only shrank,
each page taken off it is now a page of `x` at a page-table position or at one in `S`, and memory
changed only on pages that were free or are page-table pages of `x`. -/
structure Grew (vm vm' : Vm) (sp : ι → Space) (x : ι) (S : TPos → Prop) : Prop where
  keep : ∀ P a, pageAt vm.mem sp P = some a → pageAt vm'.mem sp P = some a
  sub : ∀ b, b ∈ vm'.kmem.freelist → b ∈ vm.kmem.freelist
  taken : ∀ b, b ∈ vm.kmem.freelist → b ∈ vm'.kmem.freelist ∨
    ∃ n, (n.isNode = true ∨ S n) ∧ pageAt vm'.mem sp (.tbl x n) = some b
  writes : ∀ p, vm'.mem p ≠ vm.mem p → p ∈ vm.kmem.freelist ∨
    ∃ n, n.isNode = true ∧ pageAt vm'.mem sp (.tbl x n) = some p

/-- What a call that gives up leaves behind: every page of the tree of `x` is still at its
position or free, and every page taken off the free list is a page-table page of `x`. -/
structure GaveBack (vm vm' : Vm) (sp : ι → Space) (x : ι) : Prop where
  keep : ∀ n a, pageAt vm.mem sp (.tbl x n) = some a →
    pageAt vm'.mem sp (.tbl x n) = some a ∨ a ∈ vm'.kmem.freelist
  taken : ∀ b, b ∈ vm.kmem.freelist → b ∈ vm'.kmem.freelist ∨
    ∃ n, n.isNode = true ∧ pageAt vm'.mem sp (.tbl x n) = some b

section Grew

variable {vm₁ vm₂ vm₃ : Vm} {sp : ι → Space} {x : ι} {S T : TPos → Prop}

theorem Grew.refl (vm : Vm) (sp : ι → Space) (x : ι) (S : TPos → Prop) : Grew vm vm sp x S :=
  ⟨fun _ _ h => h, fun _ h => h, fun _ h => .inl h, fun _ h => absurd rfl h⟩

theorem Grew.trans (h₁ : Grew vm₁ vm₂ sp x S) (h₂ : Grew vm₂ vm₃ sp x T) :
    Grew vm₁ vm₃ sp x fun n => S n ∨ T n := by
  refine ⟨fun P a ha => h₂.keep P a (h₁.keep P a ha), fun b hb => h₁.sub b (h₂.sub b hb),
    fun b hb => ?_, fun p hp => ?_⟩
  · rcases h₁.taken b hb with hb2 | ⟨n, hn, hpos⟩
    · rcases h₂.taken b hb2 with hb3 | ⟨n, hn, hpos⟩
      · exact .inl hb3
      · exact .inr ⟨n, hn.imp_right .inr, hpos⟩
    · exact .inr ⟨n, hn.imp_right .inl, h₂.keep _ _ hpos⟩
  · -- a page written in the second step was free before it, or is a page-table page
    by_cases hp2 : vm₂.mem p = vm₁.mem p
    · rcases h₂.writes p (by rwa [hp2]) with hf | hn
      · exact .inl (h₁.sub p hf)
      · exact .inr hn
    · rcases h₁.writes p hp2 with hf | ⟨n, hn, hpos⟩
      · exact .inl hf
      · exact .inr ⟨n, hn, h₂.keep _ _ hpos⟩

theorem Grew.mono (h : Grew vm₁ vm₂ sp x S) (hST : ∀ n, S n → T n) : Grew vm₁ vm₂ sp x T :=
  ⟨h.keep, h.sub, fun b hb => (h.taken b hb).imp_right fun ⟨n, hn, hpos⟩ =>
    ⟨n, hn.imp_right (hST n), hpos⟩, h.writes⟩

/-- A page that was not free, and is no page-table page of `x` after a growth, kept its
contents. -/
theorem Grew.mem_eq (h : Grew vm₁ vm₂ sp x S) {a : Nat} (hfree : a ∉ vm₁.kmem.freelist)
    (hnode : ∀ n, n.isNode = true → pageAt vm₂.mem sp (.tbl x n) ≠ some a) :
    vm₂.mem a = vm₁.mem a := by
  by_contra hne
  rcases h.writes a hne with hf | ⟨n, hn, hpos⟩
  · exact hfree hf
  · exact hnode n hn hpos

/-- One position of `x` that had no page gets one, by writes to page-table pages of `x` only. -/
theorem Grew.of_update [DecidableEq ι] {n : TPos} {v : Option Nat}
    (hpage : pageAt vm₂.mem sp = Function.update (pageAt vm₁.mem sp) (.tbl x n) v)
    (hnone : pageAt vm₁.mem sp (.tbl x n) = none) (hk : vm₂.kmem = vm₁.kmem)
    (hw : ∀ p, vm₂.mem p ≠ vm₁.mem p →
      ∃ n, n.isNode = true ∧ pageAt vm₂.mem sp (.tbl x n) = some p) :
    Grew vm₁ vm₂ sp x S := by
  refine ⟨fun P a ha => ?_, fun b hb => hk ▸ hb, fun b hb => .inl (hk ▸ hb),
    fun p hp => .inr (hw p hp)⟩
  have hP : P ≠ .tbl x n := by
    rintro rfl
    rw [hnone] at ha
    cases ha
  rw [hpage, Function.update_of_ne hP, ha]

/-- A `kalloc` that returned a page, writes to that page alone, then a growth that left the
page at a position of `x`. -/
theorem Grew.kalloc {vm : Vm} (hz : vm.kalloc.2 ≠ 0) (hk1 : vm₁.kmem = vm.kalloc.1.kmem)
    (hp1 : pageAt vm₁.mem sp = pageAt vm.mem sp)
    (hw1 : ∀ p, vm₁.mem p ≠ vm.mem p → p = vm.kalloc.2) (hg : Grew vm₁ vm₂ sp x S)
    (hm : ∃ n, (n.isNode = true ∨ S n) ∧ pageAt vm₂.mem sp (.tbl x n) = some vm.kalloc.2) :
    Grew vm vm₂ sp x S := by
  have hfl := Vm.kalloc_freelist hz
  refine ⟨fun P a ha => hg.keep P a (hp1 ▸ ha), fun b hb => ?_, fun b hb => ?_, fun p hp => ?_⟩
  · exact kalloc_sub b (hk1 ▸ hg.sub b hb)
  · rw [hfl, List.mem_cons] at hb
    rcases hb with rfl | hb
    · exact .inr hm
    · exact hg.taken b (hk1 ▸ hb)
  · by_cases hp1' : vm₁.mem p = vm.mem p
    · rcases hg.writes p (by rwa [hp1']) with hf | hn
      · exact .inl (kalloc_sub p (hk1 ▸ hf))
      · exact .inr hn
    · rw [hw1 p hp1', hfl]
      exact .inl List.mem_cons_self

/-- A `kalloc` that returned a page, writes to that page alone, a growth, and `kfree` of the
page: the page is back on the free list. -/
theorem Grew.kalloc_kfree {vm : Vm} (hz : vm.kalloc.2 ≠ 0) (hk1 : vm₁.kmem = vm.kalloc.1.kmem)
    (hp1 : pageAt vm₁.mem sp = pageAt vm.mem sp)
    (hw1 : ∀ p, vm₁.mem p ≠ vm.mem p → p = vm.kalloc.2) (hg : Grew vm₁ vm₂ sp x S)
    (hmem : vm₃.mem = vm₂.mem) (hfl : vm₃.kmem.freelist = vm.kalloc.2 :: vm₂.kmem.freelist) :
    Grew vm vm₃ sp x S := by
  have hfl0 := Vm.kalloc_freelist hz
  refine ⟨fun P a ha => by rw [hmem]; exact hg.keep P a (hp1 ▸ ha), fun b hb => ?_,
    fun b hb => ?_, fun p hp => ?_⟩
  · rw [hfl, List.mem_cons] at hb
    rcases hb with rfl | hb
    · rw [hfl0]
      exact List.mem_cons_self
    · exact kalloc_sub b (hk1 ▸ hg.sub b hb)
  · rw [hfl0, List.mem_cons] at hb
    rcases hb with rfl | hb
    · exact .inl (by rw [hfl]; exact List.mem_cons_self)
    · rcases hg.taken b (hk1 ▸ hb) with hb2 | hpos
      · exact .inl (by rw [hfl]; exact List.mem_cons_of_mem _ hb2)
      · exact .inr (by rw [hmem]; exact hpos)
  · rw [hmem] at hp ⊢
    by_cases hp1' : vm₁.mem p = vm.mem p
    · rcases hg.writes p (by rwa [hp1']) with hf | hn
      · exact .inl (kalloc_sub p (hk1 ▸ hf))
      · exact .inr hn
    · rw [hw1 p hp1', hfl0]
      exact .inl List.mem_cons_self

theorem Released.gaveBack (h : Released vm₁ vm₂ sp x) : GaveBack vm₁ vm₂ sp x :=
  ⟨h.1, fun b hb => .inl (h.2 b hb)⟩

/-- A growth, then a call that gave back what it had, with no page left at the positions `S`
the growth used. -/
theorem Grew.gaveBack (hg : Grew vm₁ vm₂ sp x S) (hb : GaveBack vm₂ vm₃ sp x)
    (hS : ∀ n, S n → pageAt vm₃.mem sp (.tbl x n) = none) : GaveBack vm₁ vm₃ sp x := by
  refine ⟨fun n a ha => hb.keep n a (hg.keep _ a ha), fun b hb1 => ?_⟩
  rcases hg.taken b hb1 with hb2 | ⟨n, hn, hpos⟩
  · exact hb.taken b hb2
  · rcases hb.keep n b hpos with hpos3 | hfree
    · rcases hn with hn | hn
      · exact .inr ⟨n, hn, hpos3⟩
      · rw [hS n hn] at hpos3
        cases hpos3
    · exact .inl hfree

end Grew

/-- The page-table pages of every tree but that of `x` hold what they held: a call that works on
the tree of `x` leaves the other trees as they were. -/
def KeptOthers (vm vm' : Vm) (sp : ι → Space) (x : ι) : Prop :=
  ∀ y r, y ≠ x → (sp y).root = some r → ∀ n p, n.isNode = true → tablePage vm.mem r n = some p →
    vm'.mem p = vm.mem p

section Kept

variable {vm₁ vm₂ vm₃ : Vm} {sp : ι → Space} {x y : ι} {r : Nat}

theorem KeptOthers.refl (vm : Vm) (sp : ι → Space) (x : ι) : KeptOthers vm vm sp x :=
  fun _ _ _ _ _ _ _ _ => rfl

theorem KeptOthers.tablePage_eq (h : KeptOthers vm₁ vm₂ sp x) (hxy : y ≠ x)
    (hy : (sp y).root = some r) : tablePage vm₂.mem r = tablePage vm₁.mem r :=
  tablePage_congr (h y r hxy hy)

theorem KeptOthers.trans (h₁ : KeptOthers vm₁ vm₂ sp x) (h₂ : KeptOthers vm₂ vm₃ sp x) :
    KeptOthers vm₁ vm₃ sp x := by
  intro y r hxy hy n p hn hp
  rw [h₂ y r hxy hy n p hn (by rw [h₁.tablePage_eq hxy hy]; exact hp), h₁ y r hxy hy n p hn hp]

/-- Only memory counts: a state with the memory of one that kept the other trees keeps them. -/
theorem KeptOthers.of_mem_eq (h : KeptOthers vm₁ vm₂ sp x) (hmem : vm₃.mem = vm₂.mem) :
    KeptOthers vm₁ vm₃ sp x := by
  intro y r hxy hy n p hn hp
  rw [hmem]
  exact h y r hxy hy n p hn hp

end Kept

variable {vm : Vm} {sp : ι → Space}

theorem VmInv.nodesInj (h : VmInv «end» k0 vm sp) {x : ι} {r : Nat} (hx : (sp x).root = some r) :
    NodesInj vm.mem r :=
  nodesInj_of_excl h.excl hx

/-! ## The allocator -/

variable (hend : KERNBASE ≤ «end»)
include hend

/-- An owned page's count is not touched by `kalloc`. -/
theorem kalloc_ref_of_not_free (hk : KmemInv «end» vm.kmem) {a : Nat} (ha : Managed «end» a)
    (hnf : a ∉ vm.kmem.freelist) :
    (Xv6.kalloc vm.kmem).1.refCounts (getRefIndex a) = vm.kmem.refCounts (getRefIndex a) ∧
      a ∉ (Xv6.kalloc vm.kmem).1.freelist := by
  cases hfl : vm.kmem.freelist with
  | nil =>
    rw [kalloc_nil hfl]
    have hne : getRefIndex a ≠ getRefIndex 0 := by
      have := ha.index_pos hend
      simp only [getRefIndex, Nat.zero_div] at this ⊢
      omega
    simp [Function.update_of_ne hne, hfl]
  | cons r next =>
    rw [kalloc_cons hfl]
    have hr : Managed «end» r := hk.free_managed r (by simp [hfl])
    have hne : a ≠ r := fun e => hnf (by simp [hfl, e])
    refine ⟨update_index_of_ne hr ha hne, fun hm => hnf (by simp [hfl, hm])⟩

/-- `kalloc` keeps the invariant; the page it returns, if any, is held. -/
theorem VmInv.kalloc (h : VmInv «end» k0 vm sp) :
    VmInv «end» k0 vm.kalloc.1 sp ∧ HeldKept «end» vm vm.kalloc.1 sp ∧
      (vm.kalloc.2 ≠ 0 → HeldPage «end» vm.kalloc.1 sp vm.kalloc.2 ∧
        vm.kalloc.2 ∈ vm.kmem.freelist) := by
  have hsub : ∀ b, b ∈ (Xv6.kalloc vm.kmem).1.freelist → b ∈ vm.kmem.freelist := by
    intro b hb
    cases hfl : vm.kmem.freelist with
    | nil => simp [kalloc_nil hfl, hfl] at hb
    | cons r next => simp_all [kalloc_cons hfl]
  have hown : ∀ p a, pageAt vm.mem sp p = some a → Managed «end» a ∧
      (Xv6.kalloc vm.kmem).1.refCounts (getRefIndex a) = 1 := by
    intro p a hp
    obtain ⟨hm, hr⟩ := h.owned p a hp
    rw [(kalloc_ref_of_not_free hend h.kmem hm (h.excl.not_free p a hp)).1]
    exact ⟨hm, hr⟩
  refine ⟨⟨h.kmem.kalloc hend, h.run.snoc (KStep.kalloc rfl), h.excl.shrink hsub, hown,
    h.interior⟩, fun b hb => ?_, fun h0 => ?_⟩
  · obtain ⟨href, hnf⟩ := kalloc_ref_of_not_free hend h.kmem hb.managed hb.held.not_free
    exact ⟨⟨hb.held.not_owned, hnf⟩, hb.managed, href.trans hb.ref⟩
  · -- the page came off the head of the free list
    cases hfl : vm.kmem.freelist with
    | nil =>
      simp [Vm.kalloc, kalloc_nil hfl] at h0
    | cons r next =>
      have hret : vm.kalloc.2 = r := by simp [Vm.kalloc, kalloc_cons hfl]
      have hr : Managed «end» r := h.kmem.free_managed r (by simp [hfl])
      have hnd : r ∉ next := (List.nodup_cons.mp (hfl ▸ h.kmem.nodup)).1
      rw [hret]
      refine ⟨⟨⟨fun p hp => h.excl.not_free p r hp (by simp [hfl]), ?_⟩, hr, ?_⟩, by simp⟩
      · simpa [Vm.kalloc, kalloc_cons hfl] using hnd
      · simp [Vm.kalloc, kalloc_cons hfl]

/-- A `kalloc` that found no page: the free list was empty, and nothing else moved. -/
theorem VmInv.grew_kalloc_zero (h : VmInv «end» k0 vm sp) (hz : vm.kalloc.2 = 0) {x : ι}
    {S : TPos → Prop} : Grew vm vm.kalloc.1 sp x S := by
  have hnil : vm.kmem.freelist = [] := by
    cases hfl : vm.kmem.freelist with
    | nil => rfl
    | cons pg next =>
      have hret : vm.kalloc.2 = pg := by simp [Vm.kalloc, kalloc_cons hfl]
      exact absurd (by rw [← hret]; exact hz) ((h.kmem.free_managed pg (by simp [hfl])).ne_zero hend)
  exact ⟨fun _ _ ha => ha, kalloc_sub, fun b hb => by simp [hnil] at hb, fun p hp => absurd rfl hp⟩

omit hend

/-- `kfree` of a held page: no panic, and the page goes back on the free list. -/
theorem VmInv.kfree_held (h : VmInv «end» k0 vm sp) {a : Nat} (ha : HeldPage «end» vm sp a) :
    ∃ vm', vm.kfree «end» a = .ok vm' ∧ VmInv «end» k0 vm' sp ∧ vm'.mem = vm.mem ∧
      vm'.kmem.freelist = a :: vm.kmem.freelist ∧
      ∀ b, b ≠ a → HeldPage «end» vm sp b → HeldPage «end» vm' sp b := by
  obtain ⟨k, hk⟩ := kfree_isSome vm.kmem ha.managed
  obtain ⟨-, href, hcase⟩ := kfree_eq_some hk
  have hfl : k.freelist = a :: vm.kmem.freelist := by
    rcases hcase with ⟨hgt, -⟩ | ⟨-, hfl, -⟩
    · rw [ha.ref] at hgt
      exact absurd hgt (by omega)
    · exact hfl
  have hpos : 1 ≤ vm.kmem.refCounts (getRefIndex a) := by have := ha.ref; omega
  have hfree : ∀ b, b ∈ k.freelist → b ∈ vm.kmem.freelist ∨ b = a := by
    intro b hb
    rw [hfl, List.mem_cons] at hb
    exact hb.symm
  -- every other page keeps its count
  have hother : ∀ b, Managed «end» b → b ≠ a → k.refCounts (getRefIndex b) =
      vm.kmem.refCounts (getRefIndex b) := fun b hb hne => by
    rw [href, update_index_of_ne ha.managed hb hne]
  refine ⟨{ vm with kmem := k, calls := vm.calls ++ [.kfree a] }, by simp [Vm.kfree, hk],
    ⟨h.kmem.kfree hpos hk, h.run.snoc (KStep.kfree hpos hk), h.excl.release ha.held hfree,
      fun p b hp => ?_, h.interior⟩, rfl, hfl, fun b hba hb => ?_⟩
  · obtain ⟨hm, hr⟩ := h.owned p b hp
    have hba : b ≠ a := fun e => ha.held.not_owned p (e ▸ hp)
    exact ⟨hm, (hother b hm hba).trans hr⟩
  · exact ⟨hb.held.release hba hfree, hb.managed, (hother b hb.managed hba).trans hb.ref⟩

/-! ## Installing pages -/

/-- Zeroing a page no one owns changes no tree. -/
theorem zero_agree {a : Nat} (hnot : ∀ q, pageAt vm.mem sp q ≠ some a) {x : ι} {r : Nat}
    (hx : (sp x).root = some r) :
    ∀ n p, n.isNode = true → tablePage vm.mem r n = some p → (vm.zero a).mem p = vm.mem p := by
  intro n p _ hp
  have hpa : p ≠ a := fun e => hnot (.tbl x n) (by simp [pageAt, hx, hp, e])
  simp [Vm.zero_mem, hpa]

/-- A held page given to a position: the invariant holds again, and what else was held is
still held. -/
theorem VmInv.give [DecidableEq ι] {vm' : Vm} {sp' : ι → Space} {pg : Nat} {P : Pos ι}
    (h : VmInv «end» k0 vm sp) (hpg : HeldPage «end» vm sp pg)
    (hpage : pageAt vm'.mem sp' = Function.update (pageAt vm.mem sp) P (some pg))
    (hk : vm'.kmem = vm.kmem) (hc : vm'.calls = vm.calls)
    (hint : ∀ x r, (sp' x).root = some r → Interior vm'.mem r) :
    VmInv «end» k0 vm' sp' ∧ ∀ b, b ≠ pg → HeldPage «end» vm sp b → HeldPage «end» vm' sp' b := by
  refine ⟨⟨hk ▸ h.kmem, hk ▸ hc ▸ h.run, ?_, fun p a hp => ?_, hint⟩, fun b hb hheld => ?_⟩
  · rw [hpage, hk]
    exact h.excl.give P hpg.held
  · rw [hpage, Function.update_apply] at hp
    rw [hk]
    split_ifs at hp
    · cases hp
      exact ⟨hpg.managed, hpg.ref⟩
    · exact h.owned p a hp
  · refine ⟨⟨fun q hq => ?_, hk ▸ hheld.held.not_free⟩, hheld.managed, hk ▸ hheld.ref⟩
    rw [hpage, Function.update_apply] at hq
    split_ifs at hq
    · cases hq
      exact hb rfl
    · exact hheld.held.not_owned q hq

/-- The pages a call wrote are pages of the tree of `x` or pages no one owns. -/
def WritesIn (vm vm' : Vm) (sp : ι → Space) (x : ι) : Prop :=
  ∀ p, vm'.mem p ≠ vm.mem p → (∃ n, pageAt vm.mem sp (.tbl x n) = some p) ∨
    ∀ q, pageAt vm.mem sp q ≠ some p

/-- A change of the tree of `x` at one position, by writes to its own pages and to pages no one
owns, is a change of what `x` owns at that position; the other trees keep their leaves and
every tree stays interior if that of `x` does. -/
theorem VmInv.frame [DecidableEq ι] {vm' : Vm} {x : ι} {r : Nat} {n : TPos} {v : Option Nat}
    (h : VmInv «end» k0 vm sp) (hx : (sp x).root = some r) (hw : WritesIn vm vm' sp x)
    (hloc : tablePage vm'.mem r = Function.update (tablePage vm.mem r) n v)
    (hintx : Interior vm'.mem r) :
    pageAt vm'.mem sp = Function.update (pageAt vm.mem sp) (.tbl x n) v ∧
      (∀ y r', (sp y).root = some r' → Interior vm'.mem r') ∧
      ∀ y r', y ≠ x → (sp y).root = some r' → ∀ i j k, i < 512 → j < 512 →
        leafPte vm'.mem r' i j k = leafPte vm.mem r' i j k := by
  have hagree := fun y r' (hy : (sp y).root = some r') (hxy : y ≠ x) =>
    tablePage_other_of_excl h.excl hy hxy hw
  refine ⟨pageAt_update hx hloc fun y r' hxy hy => tablePage_congr (hagree y r' hy hxy),
    fun y r' hy => ?_, fun y r' hxy hy i j k hi hj => leafPte_congr_nodes (hagree y r' hy hxy) hi hj⟩
  by_cases hxy : y = x
  · subst hxy
    rw [hx] at hy
    cases hy
    exact hintx
  · exact (h.interior y r' hy).congr (hagree y r' hy hxy)

/-- Writes to the pages of the tree of `x` and to pages no one owns keep the other trees. -/
theorem VmInv.keptOthers {vm' : Vm} {x : ι} (h : VmInv «end» k0 vm sp) (hw : WritesIn vm vm' sp x) :
    KeptOthers vm vm' sp x :=
  fun _ _ hxy hy => tablePage_other_of_excl h.excl hy hxy hw

/-- A growth of the tree of `x` keeps the other trees: it wrote only pages that were free or are
now page-table pages of `x`, and neither kind is a page of another tree. -/
theorem Grew.keptOthers {vm' : Vm} {x : ι} {S : TPos → Prop} (hg : Grew vm vm' sp x S)
    (h : VmInv «end» k0 vm sp) (h' : VmInv «end» k0 vm' sp) : KeptOthers vm vm' sp x := by
  intro y r hxy hy n p _ hp
  have hpy : pageAt vm.mem sp (.tbl y n) = some p := by simp [pageAt, hy, hp]
  by_contra hne
  rcases hg.writes p hne with hfree | ⟨n', -, hpos⟩
  · exact h.excl.not_free _ p hpy hfree
  · exact hxy (Pos.tbl.inj (h'.excl.inj _ _ p (hg.keep _ p hpy) hpos)).1

/-- Memory changed where no owner sees it. -/
theorem VmInv.of_pageAt {vm' : Vm} (h : VmInv «end» k0 vm sp)
    (hpage : pageAt vm'.mem sp = pageAt vm.mem sp) (hk : vm'.kmem = vm.kmem)
    (hc : vm'.calls = vm.calls) (hint : ∀ x r, (sp x).root = some r → Interior vm'.mem r) :
    VmInv «end» k0 vm' sp ∧ HeldKept «end» vm vm' sp := by
  refine ⟨⟨hk ▸ h.kmem, hk ▸ hc ▸ h.run, ?_, fun p a hp => ?_, hint⟩, fun b hb => ?_⟩
  · rw [hpage, hk]
    exact h.excl
  · rw [hpage] at hp
    rw [hk]
    exact h.owned p a hp
  · refine ⟨?_, hb.managed, hk ▸ hb.ref⟩
    rw [hpage, hk]
    exact hb.held

/-- Zeroing a held page: the invariant holds, no tree changes, and what was held is still
held. -/
theorem VmInv.zero_held (h : VmInv «end» k0 vm sp) {a : Nat} (ha : HeldPage «end» vm sp a) :
    VmInv «end» k0 (vm.zero a) sp ∧ LeavesKept vm (vm.zero a) sp ∧
      HeldKept «end» vm (vm.zero a) sp ∧ pageAt (vm.zero a).mem sp = pageAt vm.mem sp := by
  have hZ := fun y r (hy : (sp y).root = some r) => zero_agree ha.held.not_owned hy
  have hpage : pageAt (vm.zero a).mem sp = pageAt vm.mem sp :=
    pageAt_congr fun y r hy => tablePage_congr (hZ y r hy)
  obtain ⟨hinv, hkeep⟩ := h.of_pageAt hpage rfl rfl fun y r hy => (h.interior y r hy).congr (hZ y r hy)
  exact ⟨hinv, fun y r hy i j k hi hj => leafPte_congr_nodes (hZ y r hy) hi hj, hkeep, hpage⟩

/-- A position of a tree lets go of its page, which the call then holds. -/
theorem VmInv.dropAt [DecidableEq ι] {vm' : Vm} {P : Pos ι} {a : Nat} (h : VmInv «end» k0 vm sp)
    (hP : pageAt vm.mem sp P = some a)
    (hpage : pageAt vm'.mem sp = Function.update (pageAt vm.mem sp) P none)
    (hk : vm'.kmem = vm.kmem) (hc : vm'.calls = vm.calls)
    (hint : ∀ x r, (sp x).root = some r → Interior vm'.mem r) :
    VmInv «end» k0 vm' sp ∧ HeldPage «end» vm' sp a ∧ HeldKept «end» vm vm' sp := by
  obtain ⟨hex, hheld⟩ := h.excl.drop hP
  obtain ⟨hm, hr⟩ := h.owned P a hP
  refine ⟨⟨hk ▸ h.kmem, hk ▸ hc ▸ h.run, ?_, fun p b hp => ?_, hint⟩, ?_, fun b hb => ?_⟩
  · rw [hpage, hk]
    exact hex
  · rw [hpage, Function.update_apply] at hp
    split_ifs at hp
    rw [hk]
    exact h.owned p b hp
  · refine ⟨?_, hm, hk ▸ hr⟩
    rw [hpage, hk]
    exact hheld
  · refine ⟨⟨fun q hq => ?_, hk ▸ hb.held.not_free⟩, hb.managed, hk ▸ hb.ref⟩
    rw [hpage, Function.update_apply] at hq
    split_ifs at hq
    exact hb.held.not_owned q hq

/-- The tree of `x` changed at one position `n`, which now holds the held page `pg`, by writes
to a page `q` of the tree and to `pg`; all else is as it was. -/
theorem VmInv.install [DecidableEq ι] {vm' : Vm} {pg q : Nat} {x : ι} {r : Nat} {n : TPos}
    (h : VmInv «end» k0 vm sp) (hpg : HeldPage «end» vm sp pg) (hx : (sp x).root = some r)
    {n0 : TPos} (hq : tablePage vm.mem r n0 = some q)
    (hmem : ∀ p, vm'.mem p ≠ vm.mem p → p = q ∨ p = pg)
    (hk : vm'.kmem = vm.kmem) (hc : vm'.calls = vm.calls)
    (hloc : tablePage vm'.mem r = Function.update (tablePage vm.mem r) n (some pg))
    (hintx : Interior vm'.mem r)
    (hleafx : ∀ i j k, i < 512 → j < 512 → leafPte vm'.mem r i j k = leafPte vm.mem r i j k) :
    VmInv «end» k0 vm' sp ∧ LeavesKept vm vm' sp ∧
      (∀ b, b ≠ pg → HeldPage «end» vm sp b → HeldPage «end» vm' sp b) ∧
      pageAt vm'.mem sp = Function.update (pageAt vm.mem sp) (.tbl x n) (some pg) := by
  have hw : WritesIn vm vm' sp x := fun p hp => by
    rcases hmem p hp with rfl | rfl
    · exact .inl ⟨n0, by simp [pageAt, hx, hq]⟩
    · exact .inr hpg.held.not_owned
  obtain ⟨hpage, hint, hother⟩ := h.frame hx hw hloc hintx
  obtain ⟨hinv, hheld⟩ := h.give hpg hpage hk hc hint
  refine ⟨hinv, fun y r' hy i j k hi hj => ?_, hheld, hpage⟩
  by_cases hxy : y = x
  · subst hxy
    rw [hx] at hy
    cases hy
    exact hleafx i j k hi hj
  · exact hother y r' hxy hy i j k hi hj

/-! ## `walk` -/

theorem walkLevel_true (va level pagetable : Nat) (vm : Vm) :
    walkLevel true va level pagetable vm =
      if Valid (vm.mem pagetable (PX level va)) then
        (some (PTE2PA (vm.mem pagetable (PX level va))), vm)
      else if vm.kalloc.2 = 0 then (none, vm.kalloc.1)
      else (some vm.kalloc.2, (vm.kalloc.1.zero vm.kalloc.2).write pagetable (PX level va)
        (PA2PTE vm.kalloc.2 ||| PTE_V)) := by
  unfold walkLevel Valid
  by_cases hv : vm.mem pagetable (PX level va) &&& PTE_V ≠ 0 <;> simp [hv]

/-- A fresh page-table page: its interior entry, and the page itself, all zero. -/
theorem fresh_table (vm : Vm) {pg q e : Nat} (hpg : pg % PGSIZE = 0) (hpq : pg ≠ q) :
    (∀ p, ((vm.zero pg).write q e (PA2PTE pg ||| PTE_V)).mem p ≠ vm.mem p → p = q ∨ p = pg) ∧
    child (PA2PTE pg ||| PTE_V) = some pg ∧
    (Valid (PA2PTE pg ||| PTE_V) → (PA2PTE pg ||| PTE_V) &&& (PTE_R ||| PTE_W ||| PTE_X) = 0) ∧
    ∀ pg', child (PA2PTE pg ||| PTE_V) = some pg' → pg' ≠ q ∧
      ∀ j, ¬ Valid ((vm.zero pg).mem pg' j) := by
  obtain ⟨hv, hpa, hrwx⟩ := table_pte hpg
  have hc : child (PA2PTE pg ||| PTE_V) = some pg := child_eq_some.mpr ⟨hv, hpa⟩
  refine ⟨fun p hp => ?_, hc, fun _ => hrwx, fun pg' hpg' => ?_⟩
  · by_cases h1 : p = q
    · exact .inl h1
    · by_cases h2 : p = pg
      · exact .inr h2
      · simp [Vm.write_mem, Vm.zero_mem, h1, h2] at hp
  · rw [hc] at hpg'
    cases hpg'
    refine ⟨hpq, fun j => ?_⟩
    simp [Vm.zero_mem, not_valid_zero]

/-- One round of `walk` with allocation makes at most one call to the allocator, and comes back
with no page only when that call found none. -/
theorem walkLevel_calls (va level pagetable : Nat) (vm : Vm) :
    ∃ evs, (walkLevel true va level pagetable vm).2.calls = vm.calls ++ evs ∧
      ((walkLevel true va level pagetable vm).1 = none → KEvent.kalloc 0 ∈ evs) := by
  rw [walkLevel_true]
  split_ifs with hv hz
  · exact ⟨[], by simp, fun h => by cases h⟩
  · exact ⟨[.kalloc vm.kalloc.2], rfl, fun _ => by simp [hz]⟩
  · exact ⟨[.kalloc vm.kalloc.2], rfl, fun h => by cases h⟩

/-- `walk` with allocation: the calls it made to the allocator, and no page only when one of
them found none. -/
theorem walk_calls {pagetable va : Nat} {vm vm' : Vm} {res : Option (Nat × Nat)}
    (h : walk pagetable va true vm = .ok (res, vm')) :
    ∃ evs, vm'.calls = vm.calls ++ evs ∧ (res = none → KEvent.kalloc 0 ∈ evs) := by
  unfold walk at h
  split_ifs at h
  obtain ⟨e1, hc1, hn1⟩ := walkLevel_calls va 2 pagetable vm
  revert h hc1 hn1
  generalize walkLevel true va 2 pagetable vm = w1
  rintro h hc1 hn1
  obtain ⟨o1, vm1⟩ := w1
  cases o1 with
  | none =>
    cases h
    exact ⟨e1, hc1, fun _ => hn1 rfl⟩
  | some m =>
    -- the round at level 1
    dsimp only at h
    obtain ⟨e2, hc2, hn2⟩ := walkLevel_calls va 1 m vm1
    revert h hc2 hn2
    generalize walkLevel true va 1 m vm1 = w2
    rintro h hc2 hn2
    obtain ⟨o2, vm2⟩ := w2
    have hc : vm2.calls = vm.calls ++ (e1 ++ e2) := by
      rw [← List.append_assoc, ← hc1]
      exact hc2
    cases o2 with
    | none =>
      cases h
      exact ⟨e1 ++ e2, hc, fun _ => List.mem_append_right _ (hn2 rfl)⟩
    | some l =>
      cases h
      exact ⟨e1 ++ e2, hc, fun h => by cases h⟩

include hend

/-- The round of `walk` at the root: the level-1 page at `PX 2 va` when there is or can be one,
with only a fresh page-table page added to the tree. -/
theorem VmInv.walkRoot [DecidableEq ι] (h : VmInv «end» k0 vm sp) {x : ι} {r : Nat}
    (hx : (sp x).root = some r) (va : Nat) :
    VmInv «end» k0 (walkLevel true va 2 r vm).2 sp ∧ LeavesKept vm (walkLevel true va 2 r vm).2 sp ∧
      HeldKept «end» vm (walkLevel true va 2 r vm).2 sp ∧
      Grew vm (walkLevel true va 2 r vm).2 sp x (fun _ => False) ∧
      (walkLevel true va 2 r vm).1 = midPage (walkLevel true va 2 r vm).2.mem r (PX 2 va) := by
  have hi : PX 2 va < 512 := PX_lt 2 va
  obtain ⟨h1, hk1, hpg⟩ := h.kalloc hend
  rw [walkLevel_true]
  split_ifs with hv hz
  · exact ⟨h, LeavesKept.refl _ _, HeldKept.refl _ _, Grew.refl _ _ _ _, by simp [midPage, child, hv]⟩
  · exact ⟨h1, fun _ _ _ _ _ _ _ _ => by rw [Vm.kalloc_mem], hk1, h.grew_kalloc_zero hend hz,
      by simp [midPage, child, hv]⟩
  · obtain ⟨hheld, hfree⟩ := hpg hz
    have hpgr : vm.kalloc.2 ≠ r := fun e =>
      hheld.held.not_owned (.tbl x .root) (by simp [pageAt, tablePage, hx, e])
    obtain ⟨hmem, hc, hw, hnew⟩ := fresh_table vm.kalloc.1 (e := PX 2 va)
      hheld.managed.1 hpgr
    have hZ := zero_agree hheld.held.not_owned hx
    have hinjZ := (h1.nodesInj hx).congr hZ
    have hwm : ∀ p, ((vm.kalloc.1.zero vm.kalloc.2).write r (PX 2 va)
        (PA2PTE vm.kalloc.2 ||| PTE_V)).mem p = if p = r then
          Function.update ((vm.kalloc.1.zero vm.kalloc.2).mem r) (PX 2 va)
            (PA2PTE vm.kalloc.2 ||| PTE_V) else (vm.kalloc.1.zero vm.kalloc.2).mem p :=
      fun p => Vm.write_mem _ _ _ _ p
    have hold : ∀ j, lowPage (vm.kalloc.1.zero vm.kalloc.2).mem r (PX 2 va) j = none := by
      intro j
      simp [lowPage, midPage, child, Vm.zero_mem, hpgr.symm, hv]
    have hloc := tablePage_writeRoot hinjZ hi hwm hnew hold
    rw [hc, tablePage_congr hZ] at hloc
    have hroot : tablePage vm.kalloc.1.mem r .root = some r := rfl
    obtain ⟨hinv, hleaves, hheld', hpage⟩ := h1.install hheld hx hroot hmem rfl rfl hloc
      (((h1.interior x r hx).congr hZ).writeRoot hinjZ hwm hw hnew)
      (fun i j k hi hj => (leafPte_writeRoot hinjZ hwm hnew hold hi hj).trans
        (leafPte_congr_nodes hZ hi hj))
    -- the new page sits at the level-1 position, and the root entry was the only other write
    have hat : pageAt ((vm.kalloc.1.zero vm.kalloc.2).write r (PX 2 va)
        (PA2PTE vm.kalloc.2 ||| PTE_V)).mem sp (.tbl x (.mid (PX 2 va))) = some vm.kalloc.2 := by
      rw [hpage, Function.update_self]
    have hnone : pageAt vm.kalloc.1.mem sp (.tbl x (.mid (PX 2 va))) = none := by
      simp [pageAt, hx, tablePage, hi, midPage, child, hv]
    have hgrew := Grew.kalloc (S := fun _ => False) hz rfl rfl (fun p hp => absurd rfl hp)
      (Grew.of_update hpage hnone rfl fun p hp => ?_) ⟨_, .inl rfl, hat⟩
    · refine ⟨hinv, fun y r' hy i j k hi hj => (hleaves y r' hy i j k hi hj).trans
        (by rw [Vm.kalloc_mem]), fun b hb => hheld' b ?_ (hk1 b hb), hgrew, ?_⟩
      · rintro rfl
        exact hb.held.not_free hfree
      · simp [midPage, Vm.write_mem, hc]
    · rcases hmem p hp with rfl | rfl
      · refine ⟨.root, rfl, ?_⟩
        rw [hpage, Function.update_of_ne (by simp)]
        simp [pageAt, hx, tablePage]
      · exact ⟨_, rfl, hat⟩

/-- The round of `walk` at level 1, below the level-1 page `m` at `i`. -/
theorem VmInv.walkMid [DecidableEq ι] (h : VmInv «end» k0 vm sp) {x : ι} {r m : Nat}
    (hx : (sp x).root = some r) {va : Nat} (hm : midPage vm.mem r (PX 2 va) = some m) :
    VmInv «end» k0 (walkLevel true va 1 m vm).2 sp ∧ LeavesKept vm (walkLevel true va 1 m vm).2 sp ∧
      HeldKept «end» vm (walkLevel true va 1 m vm).2 sp ∧
      Grew vm (walkLevel true va 1 m vm).2 sp x (fun _ => False) ∧
      (walkLevel true va 1 m vm).1 = lowPage (walkLevel true va 1 m vm).2.mem r (PX 2 va) (PX 1 va) ∧
      midPage (walkLevel true va 1 m vm).2.mem r (PX 2 va) = some m := by
  have hi : PX 2 va < 512 := PX_lt 2 va
  have hj : PX 1 va < 512 := PX_lt 1 va
  obtain ⟨h1, hk1, hpg⟩ := h.kalloc hend
  rw [walkLevel_true]
  split_ifs with hv hz
  · exact ⟨h, LeavesKept.refl _ _, HeldKept.refl _ _, Grew.refl _ _ _ _,
      by simp [lowPage, hm, child, hv], hm⟩
  · exact ⟨h1, fun _ _ _ _ _ _ _ _ => by rw [Vm.kalloc_mem], hk1, h.grew_kalloc_zero hend hz,
      by simp [lowPage, hm, child, hv], by rw [Vm.kalloc_mem]; exact hm⟩
  · obtain ⟨hheld, hfree⟩ := hpg hz
    have hmid : tablePage vm.kalloc.1.mem r (.mid (PX 2 va)) = some m := by
      simp [tablePage, hi, hm]
    have hpgm : vm.kalloc.2 ≠ m := fun e =>
      hheld.held.not_owned (.tbl x (.mid (PX 2 va))) (by simp [pageAt, tablePage, hx, hi, hm, e])
    obtain ⟨hmem, hc, hw, hnew⟩ := fresh_table vm.kalloc.1 (e := PX 1 va)
      hheld.managed.1 hpgm
    have hZ := zero_agree hheld.held.not_owned hx
    have hinjZ := (h1.nodesInj hx).congr hZ
    have hmZ : midPage (vm.kalloc.1.zero vm.kalloc.2).mem r (PX 2 va) = some m := by
      have := tablePage_congr hZ ▸ hmid
      simpa [tablePage, hi] using this
    have hwm : ∀ p, ((vm.kalloc.1.zero vm.kalloc.2).write m (PX 1 va)
        (PA2PTE vm.kalloc.2 ||| PTE_V)).mem p = if p = m then
          Function.update ((vm.kalloc.1.zero vm.kalloc.2).mem m) (PX 1 va)
            (PA2PTE vm.kalloc.2 ||| PTE_V) else (vm.kalloc.1.zero vm.kalloc.2).mem p :=
      fun p => Vm.write_mem _ _ _ _ p
    have hold : ∀ k, leafPte (vm.kalloc.1.zero vm.kalloc.2).mem r (PX 2 va) (PX 1 va) k = none := by
      intro k
      simp [leafPte, lowPage, hmZ, child, Vm.zero_mem, hpgm.symm, hv]
    have hloc := tablePage_writeMid hinjZ hi hj hmZ hwm hnew hold
    rw [hc, tablePage_congr hZ] at hloc
    obtain ⟨hinv, hleaves, hheld', hpage⟩ := h1.install hheld hx hmid hmem rfl rfl hloc
      (((h1.interior x r hx).congr hZ).writeMid hinjZ hi hmZ hwm hw)
      (fun _ _ _ hi' hj' => (leafPte_writeMid hinjZ hi hmZ hwm hnew hold hi' hj').trans
        (leafPte_congr_nodes hZ hi' hj'))
    -- the new page sits at the level-0 position, and the level-1 entry was the only other write
    have hat : pageAt ((vm.kalloc.1.zero vm.kalloc.2).write m (PX 1 va)
        (PA2PTE vm.kalloc.2 ||| PTE_V)).mem sp (.tbl x (.low (PX 2 va) (PX 1 va))) =
        some vm.kalloc.2 := by
      rw [hpage, Function.update_self]
    have hnone : pageAt vm.kalloc.1.mem sp (.tbl x (.low (PX 2 va) (PX 1 va))) = none := by
      simp [pageAt, hx, tablePage, hi, hj, lowPage, hm, child, hv]
    have hgrew := Grew.kalloc (S := fun _ => False) hz rfl rfl (fun p hp => absurd rfl hp)
      (Grew.of_update hpage hnone rfl fun p hp => ?_) ⟨_, .inl rfl, hat⟩
    · refine ⟨hinv, fun y r' hy i j k hi hj => (hleaves y r' hy i j k hi hj).trans
        (by rw [Vm.kalloc_mem]), fun b hb => hheld' b ?_ (hk1 b hb), hgrew, ?_, ?_⟩
      · rintro rfl
        exact hb.held.not_free hfree
      · rw [lowPage_writeMid hinjZ hi hmZ hwm hi, if_pos rfl, hc]
      · rw [midPage_writeMid hinjZ hi hmZ hwm, hmZ]
    · rcases hmem p hp with rfl | rfl
      · refine ⟨.mid (PX 2 va), rfl, ?_⟩
        rw [hpage, Function.update_of_ne (by simp)]
        simpa [pageAt, hx] using hmid
      · exact ⟨_, rfl, hat⟩

/-- `walk` with allocation on a tree of the invariant, below `MAXVA`: it cannot fail, it adds at
most fresh page-table pages, and it returns the level-0 page of `va` when there is or can be
one. -/
theorem VmInv.walkAlloc [DecidableEq ι] (h : VmInv «end» k0 vm sp) {x : ι} {r : Nat}
    (hx : (sp x).root = some r) {va : Nat} (hva : va < MAXVA) :
    ∃ res vm', walk r va true vm = .ok (res, vm') ∧ VmInv «end» k0 vm' sp ∧
      LeavesKept vm vm' sp ∧ HeldKept «end» vm vm' sp ∧ Grew vm vm' sp x (fun _ => False) ∧
      res = (lowPage vm'.mem r (PX 2 va) (PX 1 va)).map (·, PX 0 va) := by
  obtain ⟨h1, hl1, hk1, hg1, he1⟩ := h.walkRoot hend hx va
  unfold walk
  rw [if_neg (Nat.not_le.mpr hva)]
  generalize walkLevel true va 2 r vm = w1 at h1 hl1 hk1 hg1 he1
  obtain ⟨o1, vm1⟩ := w1
  cases o1 with
  | none => exact ⟨_, _, rfl, h1, hl1, hk1, hg1, by simp [lowPage, ← he1]⟩
  | some m =>
    -- the level-1 page is there: the round at level 1
    dsimp only at h1 hl1 hk1 hg1 he1 ⊢
    obtain ⟨h2, hl2, hk2, hg2, he2, -⟩ := h1.walkMid hend hx he1.symm
    have hg := (hg1.trans hg2).mono fun _ hn => hn.elim id id
    generalize walkLevel true va 1 m vm1 = w2 at h2 hl2 hk2 hg he2
    obtain ⟨o2, vm2⟩ := w2
    cases o2 with
    | none => exact ⟨_, _, rfl, h2, hl1.trans hl2, hk1.trans hk2, hg, by simp [← he2]⟩
    | some l => exact ⟨_, _, rfl, h2, hl1.trans hl2, hk1.trans hk2, hg, by simp [← he2]⟩

end Inv

end Xv6
