import Xv6.Proofs.VmMap

/-!
# Freeing a page table

`freewalk` frees the page-table pages of a tree bottom-up: at each page it frees the subtree
under every valid entry without `R`, `W`, `X`, clears the entry, and frees the page itself. On
a tree of the invariant with no leaf left it cannot panic, and it frees every page-table page of
the tree once.

The proof first lets go of the tree (`VmInv.detach`): its pages are then held by the call, so
that writing and freeing them is invisible to the other trees. `Frees d c S` says that
`freewalk d c` frees exactly the held pages `S`, given their contents; it is proved for the
level-0 pages (`frees_low`) and carried up one level at a time (`frees_node`).
-/

namespace Xv6

section Detach

variable {«end» : Nat} {k0 : Kmem} {ι : Type} {vm : Vm} {sp : ι → Space}

/-- A write to a page no position owns is seen by no tree. -/
theorem VmInv.write_unowned (h : VmInv «end» k0 vm sp) {q : Nat}
    (hq : ∀ P, pageAt vm.mem sp P ≠ some q) (i w : Nat) :
    VmInv «end» k0 (vm.write q i w) sp ∧ HeldKept «end» vm (vm.write q i w) sp := by
  have hagree : ∀ x r, (sp x).root = some r → ∀ n p, n.isNode = true →
      tablePage vm.mem r n = some p → (vm.write q i w).mem p = vm.mem p := by
    intro x r hx n p _ hp
    have hpq : p ≠ q := fun e => hq (.tbl x n) (by simp [pageAt, hx, hp, e])
    simp [Vm.write_mem, hpq]
  exact h.of_pageAt (pageAt_congr fun x r hx => tablePage_congr (hagree x r hx)) rfl rfl
    fun x r hx => (h.interior x r hx).congr (hagree x r hx)

variable [DecidableEq ι]

/-- The holders without the tree of `x`. -/
def Space.dropRoot (sp : ι → Space) (x : ι) : ι → Space :=
  Function.update sp x { sp x with root := none }

theorem pageAt_dropRoot_sub (mem : Nat → Nat → Nat) (sp : ι → Space) (x : ι) :
    ∀ P a, pageAt mem (Space.dropRoot sp x) P = some a → pageAt mem sp P = some a := by
  intro P a hP
  cases P with
  | tf y =>
    by_cases hy : y = x
    · subst hy
      simpa [pageAt, Space.dropRoot] using hP
    · simpa [pageAt, Space.dropRoot, hy] using hP
  | tbl y n =>
    by_cases hy : y = x
    · subst hy
      simp [pageAt, Space.dropRoot] at hP
    · simpa [pageAt, Space.dropRoot, hy] using hP

/-- Letting go of the tree of `x`: the invariant holds without it, and every page it owned is
held by the call. -/
theorem VmInv.detach (h : VmInv «end» k0 vm sp) (x : ι) :
    VmInv «end» k0 vm (Space.dropRoot sp x) ∧
      (∀ n a, pageAt vm.mem sp (.tbl x n) = some a → HeldPage «end» vm (Space.dropRoot sp x) a) ∧
      ∀ b, HeldPage «end» vm sp b → HeldPage «end» vm (Space.dropRoot sp x) b := by
  have hsub := pageAt_dropRoot_sub vm.mem sp x
  refine ⟨⟨h.kmem, h.run, h.excl.restrict hsub, fun P a hP => h.owned P a (hsub P a hP),
    fun y r hy => ?_⟩, fun n a hn => ?_, fun b hb => ?_⟩
  · by_cases hyx : y = x
    · subst hyx
      simp [Space.dropRoot] at hy
    · exact h.interior y r (by simpa [Space.dropRoot, hyx] using hy)
  · obtain ⟨hm, hr⟩ := h.owned _ a hn
    exact ⟨h.excl.held_of_restrict hsub hn (by simp [pageAt, Space.dropRoot]), hm, hr⟩
  · exact ⟨hb.held.restrict hsub, hb.managed, hb.ref⟩

end Detach

/-! ## `freewalk` on held pages -/

section Frees

variable {«end» : Nat} {k0 : Kmem} {ι : Type} {sp : ι → Space}

variable («end» k0 sp) in
/-- `freewalk d c` frees the pages `S`, when they are held with the contents they have in
`vm0`: it does not panic, every page of `S` ends up free, the free list only grows and only by
pages of `S`, no other page is written, and what else the call held it still holds. -/
def Frees (d c : Nat) (S : Nat → Prop) (vm0 : Vm) : Prop :=
  ∀ vm1, VmInv «end» k0 vm1 sp → (∀ b, S b → HeldPage «end» vm1 sp b ∧ vm1.mem b = vm0.mem b) →
    ∃ vm2, freewalk «end» d c vm1 = .ok vm2 ∧ VmInv «end» k0 vm2 sp ∧
      (∀ b, S b → b ∈ vm2.kmem.freelist) ∧
      (∀ b, b ∈ vm1.kmem.freelist → b ∈ vm2.kmem.freelist) ∧
      (∀ b, b ∈ vm2.kmem.freelist → b ∈ vm1.kmem.freelist ∨ S b) ∧
      (∀ p, ¬ S p → vm2.mem p = vm1.mem p) ∧
      ∀ b, ¬ S b → HeldPage «end» vm1 sp b → HeldPage «end» vm2 sp b

/-- `freewalk` on a level-0 page with no valid entry frees just that page. -/
theorem frees_low (l : Nat) (vm0 : Vm) (hinv : ∀ k < 512, ¬ Valid (vm0.mem l k)) :
    Frees «end» k0 sp 1 l (· = l) vm0 := by
  intro vm1 h1 hpre
  obtain ⟨hl, hmem⟩ := hpre l rfl
  rw [freewalk]
  -- the loop finds no valid entry and changes nothing
  refine Loop.foldlM_range_bind (fun _ vm => vm = vm1) 512 (fun i s hi hs => ?_) rfl
    fun s hs => ?_
  · subst hs
    have hv : ¬ (s.mem l i &&& PTE_V ≠ 0) := by
      rw [hmem]
      exact hinv i hi
    exact ⟨s, by simp [hv], rfl⟩
  · subst hs
    obtain ⟨vm2, hfree, h2, hmem2, hin, hkeep⟩ := h1.kfree_held hl
    refine ⟨vm2, hfree, h2, fun b hb => by rw [hin, hb]; exact List.mem_cons_self,
      fun b hb => Vm.kfree_freelist hfree hb, fun b hb => ?_, fun p _ => by rw [hmem2],
      fun b hb => hkeep b hb⟩
    rw [hin, List.mem_cons] at hb
    exact hb.symm

section Node

variable {q : Nat} {vm0 vm1 : Vm} {Sc : Nat → Nat → Prop}

variable («end» k0 sp) in
/-- The state of `freewalk (d + 1) q` after the rounds `0 … i - 1` of its loop, from `vm1`: the
subtrees under the valid entries below `i` are free and those entries are clear; the rest of
`q` and the subtrees to come are as in `vm0`, and held. -/
structure NodeFold (q : Nat) (vm0 vm1 : Vm) (Sc : Nat → Nat → Prop) (i : Nat) (vm : Vm) :
    Prop where
  inv : VmInv «end» k0 vm sp
  held : HeldPage «end» vm sp q
  ahead : ∀ j, i ≤ j → vm.mem q j = vm0.mem q j
  todo : ∀ j, i ≤ j → j < 512 → Valid (vm0.mem q j) → ∀ b, Sc j b →
    HeldPage «end» vm sp b ∧ vm.mem b = vm0.mem b
  done : ∀ j, j < i → Valid (vm0.mem q j) → ∀ b, Sc j b → b ∈ vm.kmem.freelist
  grows : ∀ b, b ∈ vm1.kmem.freelist → b ∈ vm.kmem.freelist
  only : ∀ b, b ∈ vm.kmem.freelist → b ∈ vm1.kmem.freelist ∨
    ∃ j, j < i ∧ Valid (vm0.mem q j) ∧ Sc j b
  frame : ∀ p, p ≠ q → (∀ j, j < i → Valid (vm0.mem q j) → ¬ Sc j p) → vm.mem p = vm1.mem p
  others : ∀ b, b ≠ q → (∀ j, j < 512 → Valid (vm0.mem q j) → ¬ Sc j b) →
    HeldPage «end» vm1 sp b → HeldPage «end» vm sp b

/-- One round of the loop of `freewalk`: an entry that points to a table has its subtree freed
and is cleared; an invalid one is skipped. -/
theorem NodeFold.step {d i : Nat} {vm : Vm}
    (hint : ∀ j < 512, Valid (vm0.mem q j) → vm0.mem q j &&& (PTE_R ||| PTE_W ||| PTE_X) = 0)
    (hchild : ∀ j < 512, Valid (vm0.mem q j) → Frees «end» k0 sp d (PTE2PA (vm0.mem q j)) (Sc j) vm0)
    (hdisj : ∀ j j' b, j < 512 → j' < 512 → Valid (vm0.mem q j) → Valid (vm0.mem q j') →
      Sc j b → Sc j' b → j = j')
    (hq : ∀ j < 512, Valid (vm0.mem q j) → ¬ Sc j q)
    (hI : NodeFold «end» k0 sp q vm0 vm1 Sc i vm) (hi : i < 512) :
    ∃ vm', (do
        let pte := vm.mem q i
        if pte &&& PTE_V ≠ 0 ∧ pte &&& (PTE_R ||| PTE_W ||| PTE_X) = 0 then
          let vm ← freewalk «end» d (PTE2PA pte) vm
          return vm.write q i 0
        else if pte &&& PTE_V ≠ 0 then throw "freewalk: leaf"
        else return vm : Except String Vm) = .ok vm' ∧
      NodeFold «end» k0 sp q vm0 vm1 Sc (i + 1) vm' := by
  have hpte : vm.mem q i = vm0.mem q i := hI.ahead i le_rfl
  by_cases hv : Valid (vm0.mem q i)
  · -- a table below: free it, then clear the entry
    have hcond : vm.mem q i &&& PTE_V ≠ 0 ∧ vm.mem q i &&& (PTE_R ||| PTE_W ||| PTE_X) = 0 := by
      rw [hpte]
      exact ⟨hv, hint i hi hv⟩
    obtain ⟨vm2, hfw, h2, hfree2, hgrow2, honly2, hframe2, hkeep2⟩ :=
      hchild i hi hv vm hI.inv (hI.todo i le_rfl hi hv)
    have hq2 : HeldPage «end» vm2 sp q := hkeep2 q (hq i hi hv) hI.held
    obtain ⟨h3, hkeep3⟩ := h2.write_unowned hq2.held.not_owned i 0
    have hround : (if vm.mem q i &&& PTE_V ≠ 0 ∧ vm.mem q i &&& (PTE_R ||| PTE_W ||| PTE_X) = 0 then
        (do let vm ← freewalk «end» d (PTE2PA (vm.mem q i)) vm; return vm.write q i 0)
        else if vm.mem q i &&& PTE_V ≠ 0 then throw "freewalk: leaf" else return vm :
          Except String Vm) = .ok (vm2.write q i 0) := by
      rw [if_pos hcond, hpte, hfw]
      rfl
    refine ⟨vm2.write q i 0, hround, ⟨h3, ?_, fun j hj => ?_,
      fun j hj hj' hvj b hb => ?_, fun j hj hvj b hb => ?_, fun b hb => hgrow2 b (hI.grows b hb),
      fun b hb => ?_, fun p hp hout => ?_,
      fun b hb hout hb1 => hkeep3 b (hkeep2 b ?_ (hI.others b hb hout hb1))⟩⟩
    · exact hkeep3 q hq2
    · rw [Vm.write_mem, if_pos rfl, Function.update_of_ne (by omega), hframe2 q (hq i hi hv),
        hI.ahead j (by omega)]
    · -- a later subtree: untouched by this round
      have hbi : ¬ Sc i b := fun hbi => by
        have := hdisj i j b hi hj' hv hvj hbi hb
        omega
      have hbq : b ≠ q := fun e => hq j hj' hvj (e ▸ hb)
      obtain ⟨hheld, hmem⟩ := hI.todo j (by omega) hj' hvj b hb
      refine ⟨hkeep3 b (hkeep2 b hbi hheld), ?_⟩
      rw [Vm.write_mem, if_neg hbq, hframe2 b hbi, hmem]
    · rcases Nat.lt_succ_iff_lt_or_eq.mp hj with hj | rfl
      · exact hgrow2 b (hI.done j hj hvj b hb)
      · exact hfree2 b hb
    · -- what this round freed is the subtree under entry `i`
      rcases honly2 b hb with hb | hb
      · exact (hI.only b hb).imp_right fun ⟨j, hj, hvj, hbj⟩ => ⟨j, by omega, hvj, hbj⟩
      · exact .inr ⟨i, by omega, hv, hb⟩
    · rw [Vm.write_mem, if_neg hp, hframe2 p (hout i (by omega) hv)]
      exact hI.frame p hp fun j hj => hout j (by omega)
    · exact fun hbi => hout i hi hv hbi
  · -- an invalid entry: nothing to do
    have hcond : ¬ (vm.mem q i &&& PTE_V ≠ 0) := by
      rw [hpte]
      exact hv
    refine ⟨vm, by simp [hcond], ⟨hI.inv, hI.held, fun j hj => hI.ahead j (by omega),
      fun j hj => hI.todo j (by omega), fun j hj hvj => ?_, hI.grows,
      fun b hb => (hI.only b hb).imp_right fun ⟨j, hj, hvj, hbj⟩ => ⟨j, by omega, hvj, hbj⟩,
      fun p hp hout => hI.frame p hp fun j hj => hout j (by omega), hI.others⟩⟩
    rcases Nat.lt_succ_iff_lt_or_eq.mp hj with hj | rfl
    · exact hI.done j hj hvj
    · exact absurd hvj hv

variable (Sc) in
/-- `freewalk (d + 1) q` frees `q` and the subtrees under its valid entries, when these are
tables that `freewalk d` frees and are disjoint. -/
theorem frees_node {d : Nat}
    (hint : ∀ j < 512, Valid (vm0.mem q j) → vm0.mem q j &&& (PTE_R ||| PTE_W ||| PTE_X) = 0)
    (hchild : ∀ j < 512, Valid (vm0.mem q j) → Frees «end» k0 sp d (PTE2PA (vm0.mem q j)) (Sc j) vm0)
    (hdisj : ∀ j j' b, j < 512 → j' < 512 → Valid (vm0.mem q j) → Valid (vm0.mem q j') →
      Sc j b → Sc j' b → j = j')
    (hq : ∀ j < 512, Valid (vm0.mem q j) → ¬ Sc j q) :
    Frees «end» k0 sp (d + 1) q (fun b => b = q ∨ ∃ j < 512, Valid (vm0.mem q j) ∧ Sc j b) vm0 := by
  intro vm1 h1 hpre
  obtain ⟨hqheld, hqmem⟩ := hpre q (.inl rfl)
  rw [freewalk]
  refine Loop.foldlM_range_bind (NodeFold «end» k0 sp q vm0 vm1 Sc) 512
    (fun i s hi hs => hs.step hint hchild hdisj hq hi)
    ⟨h1, hqheld, fun j _ => by rw [hqmem], fun j _ hj hvj b hb => hpre b (.inr ⟨j, hj, hvj, hb⟩),
      fun j hj => absurd hj (Nat.not_lt_zero j), fun _ hb => hb, fun _ hb => .inl hb,
      fun _ _ _ => rfl, fun _ _ _ hb => hb⟩ fun s hs => ?_
  -- the loop is done: free `q` itself
  obtain ⟨vm2, hfree, h2, hmem2, hin, hkeep⟩ := hs.inv.kfree_held hs.held
  refine ⟨vm2, hfree, h2, fun b hb => ?_, fun b hb => Vm.kfree_freelist hfree (hs.grows b hb),
    fun b hb => ?_, fun p hp => ?_, fun b hb hb1 => ?_⟩
  · rcases hb with rfl | ⟨j, hj, hvj, hb⟩
    · rw [hin]
      exact List.mem_cons_self
    · exact Vm.kfree_freelist hfree (hs.done j hj hvj b hb)
  · rw [hin, List.mem_cons] at hb
    rcases hb with rfl | hb
    · exact .inr (.inl rfl)
    · exact (hs.only b hb).imp_right fun ⟨j, hj, hvj, hbj⟩ => .inr ⟨j, hj, hvj, hbj⟩
  · rw [hmem2]
    exact hs.frame p (fun e => hp (.inl e)) fun j hj hvj hpj => hp (.inr ⟨j, hj, hvj, hpj⟩)
  · have hbq : b ≠ q := fun e => hb (.inl e)
    exact hkeep b hbq (hs.others b hbq (fun j hj hvj hbj => hb (.inr ⟨j, hj, hvj, hbj⟩)) hb1)

end Node

/-! ### The three levels of Sv39 -/

theorem lowPage_of_mid {mem : Nat → Nat → Nat} {r i j m : Nat} (hm : midPage mem r i = some m)
    (hv : Valid (mem m j)) : lowPage mem r i j = some (PTE2PA (mem m j)) := by
  simp [lowPage, hm, child, hv]

theorem midPage_of_valid {mem : Nat → Nat → Nat} {r i : Nat} (hv : Valid (mem r i)) :
    midPage mem r i = some (PTE2PA (mem r i)) := by
  simp [midPage, child, hv]

section Levels

variable {r : Nat} {vm0 : Vm} (hinj : NodesInj vm0.mem r) (hint : Interior vm0.mem r)
  (hnoleaf : ∀ i j k, i < 512 → j < 512 → k < 512 → leafPte vm0.mem r i j k = none)
include hinj hint hnoleaf

/-- The level-1 page under entry `i` of a tree with no leaf: `freewalk 2` frees it and the
level-0 pages below it. -/
theorem frees_mid {i m : Nat} (hi : i < 512) (hm : midPage vm0.mem r i = some m) :
    Frees «end» k0 sp 2 m (fun b => b = m ∨ ∃ j < 512, Valid (vm0.mem m j) ∧
      b = PTE2PA (vm0.mem m j)) vm0 := by
  refine frees_node (fun j b => b = PTE2PA (vm0.mem m j)) (hint.mid i hi m hm)
    (fun j hj hvj => frees_low _ vm0 fun k hk hvk => ?_) (fun j j' b hj hj' hvj hvj' hb hb' => ?_)
    (fun j hj hvj hmj => ?_)
  · -- a valid entry of the level-0 page would be a leaf
    have := hnoleaf i j k hi hj hk
    simp [leafPte, lowPage_of_mid hm hvj, hvk] at this
  · subst hb
    exact (hinj.low_inj hi hj hi hj' (lowPage_of_mid hm hvj) (hb' ▸ lowPage_of_mid hm hvj')).2
  · exact hinj.low_ne_mid hi hj hi (lowPage_of_mid hm hvj) (hmj ▸ hm)

/-- A tree with no leaf: `freewalk 3` frees its root and every page-table page below it. -/
theorem frees_root :
    Frees «end» k0 sp 3 r (fun b => b = r ∨ ∃ i < 512, Valid (vm0.mem r i) ∧
      (b = PTE2PA (vm0.mem r i) ∨ ∃ j < 512, Valid (vm0.mem (PTE2PA (vm0.mem r i)) j) ∧
        b = PTE2PA (vm0.mem (PTE2PA (vm0.mem r i)) j))) vm0 := by
  refine frees_node _ hint.root (fun i hi hvi => frees_mid hinj hint hnoleaf hi (midPage_of_valid hvi))
    (fun i i' b hi hi' hvi hvi' hb hb' => ?_) (fun i hi hvi hri => ?_)
  · have hm := midPage_of_valid hvi
    have hm' := midPage_of_valid hvi'
    rcases hb with rfl | ⟨j, hj, hvj, rfl⟩ <;> rcases hb' with hb' | ⟨j', hj', hvj', hb'⟩
    · exact hinj.mid_inj hi hi' hm (hb' ▸ hm')
    · exact absurd (hb' ▸ hm) (hinj.low_ne_mid hi' hj' hi (lowPage_of_mid hm' hvj'))
    · exact absurd (hb' ▸ hm') (hinj.low_ne_mid hi hj hi' (lowPage_of_mid hm hvj))
    · exact (hinj.low_inj hi hj hi' hj' (lowPage_of_mid hm hvj)
        (hb' ▸ lowPage_of_mid hm' hvj')).1
  · have hm := midPage_of_valid hvi
    rcases hri with hri | ⟨j, hj, hvj, hri⟩
    · exact hinj.mid_ne_root hi hm hri.symm
    · exact hinj.low_ne_root hi hj (lowPage_of_mid hm hvj) hri.symm

end Levels

end Frees

/-! ## Freeing a whole table -/

section Tables

variable {«end» : Nat} {k0 : Kmem} {ι : Type} [DecidableEq ι] {vm : Vm} {sp : ι → Space}
  {x : ι} {r : Nat}

/-- The pages `frees_root` frees are the page-table pages of the tree. -/
theorem frees_root_iff {mem : Nat → Nat → Nat} {b : Nat} :
    (b = r ∨ ∃ i < 512, Valid (mem r i) ∧ (b = PTE2PA (mem r i) ∨
      ∃ j < 512, Valid (mem (PTE2PA (mem r i)) j) ∧ b = PTE2PA (mem (PTE2PA (mem r i)) j))) ↔
    ∃ n, n.isNode = true ∧ tablePage mem r n = some b := by
  constructor
  · rintro (rfl | ⟨i, hi, hvi, rfl | ⟨j, hj, hvj, rfl⟩⟩)
    · exact ⟨.root, rfl, rfl⟩
    · exact ⟨.mid i, rfl, by simp [tablePage, hi, midPage_of_valid hvi]⟩
    · exact ⟨.low i j, rfl, by simp [tablePage, hi, hj, lowPage_of_mid (midPage_of_valid hvi) hvj]⟩
  · rintro ⟨n, hn, hb⟩
    cases n with
    | root =>
      cases hb
      exact .inl rfl
    | mid i =>
      simp only [tablePage] at hb
      split_ifs at hb with hi
      obtain ⟨hvi, rfl⟩ := child_eq_some.mp hb
      exact .inr ⟨i, hi, hvi, .inl rfl⟩
    | low i j =>
      simp only [tablePage] at hb
      split_ifs at hb with hij
      obtain ⟨m, hm, hl⟩ := Option.bind_eq_some_iff.mp hb
      obtain ⟨hvi, rfl⟩ := child_eq_some.mp hm
      obtain ⟨hvj, rfl⟩ := child_eq_some.mp hl
      exact .inr ⟨i, hij.1, hvi, .inr ⟨j, hij.2, hvj, rfl⟩⟩
    | leaf => cases hn

/-- `freewalk` of the tree of `x` once its leaves are gone: no panic, the holders without the
tree keep the invariant, every page the tree owned is free, and no other tree moves. -/
theorem VmInv.freeTree (h : VmInv «end» k0 vm sp) (hx : (sp x).root = some r)
    (hnoleaf : ∀ i j k, i < 512 → j < 512 → k < 512 → leafPte vm.mem r i j k = none) :
    ∃ vm', freewalk «end» 3 r vm = .ok vm' ∧ VmInv «end» k0 vm' (Space.dropRoot sp x) ∧
      (∀ n a, pageAt vm.mem sp (.tbl x n) = some a → a ∈ vm'.kmem.freelist) ∧
      (∀ b, b ∈ vm.kmem.freelist → b ∈ vm'.kmem.freelist) ∧
      (∀ b, b ∈ vm'.kmem.freelist → b ∈ vm.kmem.freelist ∨
        ∃ n, pageAt vm.mem sp (.tbl x n) = some b) ∧
      (∀ b, HeldPage «end» vm sp b → HeldPage «end» vm' (Space.dropRoot sp x) b) ∧
      (∀ y r', y ≠ x → (sp y).root = some r' → ∀ i j k, i < 512 → j < 512 →
        leafPte vm'.mem r' i j k = leafPte vm.mem r' i j k) ∧ KeptOthers vm vm' sp x := by
  obtain ⟨h', hheldx, hheld⟩ := h.detach x
  have hnode : ∀ b, (∃ n, n.isNode = true ∧ tablePage vm.mem r n = some b) →
      ∃ n, pageAt vm.mem sp (.tbl x n) = some b := by
    rintro b ⟨n, -, hn⟩
    exact ⟨n, by simp [pageAt, hx, hn]⟩
  obtain ⟨vm', hfw, h'', hfreed, hgrow, honly, hframe, hkeep⟩ :=
    frees_root (h.nodesInj hx) (h.interior x r hx) hnoleaf vm h' fun b hb => by
      obtain ⟨n, hn⟩ := hnode b (frees_root_iff.mp hb)
      exact ⟨hheldx n b hn, rfl⟩
  -- a page of the tree is a page-table page: the leaves are gone
  have howned : ∀ n a, pageAt vm.mem sp (.tbl x n) = some a →
      ∃ n, n.isNode = true ∧ tablePage vm.mem r n = some a := by
    intro n a ha
    simp only [pageAt, hx, Option.bind_some] at ha
    cases n with
    | leaf i j k =>
      simp only [tablePage] at ha
      split_ifs at ha with hu
      rw [hnoleaf i j k hu.1 hu.2.1 hu.2.2.1] at ha
      cases ha
    | _ => exact ⟨_, rfl, ha⟩
  -- a page of another tree is not one of `x`
  have hko : KeptOthers vm vm' sp x := by
    intro y r' hxy hy n p _ hp
    refine hframe p fun hS => hxy ?_
    obtain ⟨n', hpx⟩ := hnode p (frees_root_iff.mp hS)
    have hpy : pageAt vm.mem sp (.tbl y n) = some p := by simp [pageAt, hy, hp]
    cases h.excl.inj _ _ p hpy hpx
    rfl
  exact ⟨vm', hfw, h'', fun n a ha => hfreed a (frees_root_iff.mpr (howned n a ha)), hgrow,
    fun b hb => (honly b hb).imp_right fun hS => hnode b (frees_root_iff.mp hS),
    fun b hb => hkeep b (fun hS => (hnode b (frees_root_iff.mp hS)).elim fun n => hb.held.not_owned _)
      (hheld b hb), fun y r' hxy hy i j k hi hj => leafPte_congr_nodes (hko y r' hxy hy) hi hj, hko⟩

/-- `uvmfree(pagetable, sz)` on a tree whose leaves are all below `PGROUNDUP(sz)`, itself at most
`TRAPFRAME`: the user pages and then the page-table pages go back to the allocator. -/
theorem VmInv.uvmfree (h : VmInv «end» k0 vm sp) (hx : (sp x).root = some r) (sz : Nat)
    (hsz : PGROUNDUP sz ≤ TRAPFRAME)
    (hb : ∀ i j k, i < 512 → j < 512 → k < 512 → (leafPte vm.mem r i j k).isSome →
      vaOf i j k < PGROUNDUP sz) :
    ∃ vm', Xv6.uvmfree «end» r sz vm = .ok vm' ∧ VmInv «end» k0 vm' (Space.dropRoot sp x) ∧
      (∀ n a, pageAt vm.mem sp (.tbl x n) = some a → a ∈ vm'.kmem.freelist) ∧
      (∀ b, b ∈ vm.kmem.freelist → b ∈ vm'.kmem.freelist) ∧
      (∀ b, b ∈ vm'.kmem.freelist → b ∈ vm.kmem.freelist ∨
        ∃ n, pageAt vm.mem sp (.tbl x n) = some b) ∧
      (∀ b, HeldPage «end» vm sp b → HeldPage «end» vm' (Space.dropRoot sp x) b) ∧
      (∀ y r', y ≠ x → (sp y).root = some r' → ∀ i j k, i < 512 → j < 512 → k < 512 →
        leafPte vm'.mem r' i j k = leafPte vm.mem r' i j k) ∧ KeptOthers vm vm' sp x := by
  rw [Xv6.uvmfree]
  by_cases hpos : 0 < sz
  · rw [if_pos hpos]
    have hn : 0 + PGROUNDUP sz / PGSIZE * PGSIZE = PGROUNDUP sz := by
      rw [Nat.zero_add, Nat.div_mul_cancel (Nat.dvd_of_mod_eq_zero (PGROUNDUP_mod sz))]
    have hT : TRAPFRAME < MAXVA := by decide
    obtain ⟨vm1, hun, h1, hnone, hout, hk1, hrel, hshed, hko1⟩ := h.uvmunmap hx (n := PGROUNDUP sz / PGSIZE)
      true (Nat.zero_mod PGSIZE) (by omega) fun _ v _ _ hv _ => by omega
    rw [hn] at hnone hout
    rw [hun, Loop.ok_bind]
    -- no leaf is left
    have hnoleaf : ∀ i j k, i < 512 → j < 512 → k < 512 → leafPte vm1.mem r i j k = none := by
      intro i j k hi hj hk
      by_cases hv : vaOf i j k < PGROUNDUP sz
      · rw [← leafAt_vaOf _ _ hi hj hk]
        exact hnone _ (vaOf_mod i j k) (Nat.zero_le _) hv
      · rw [hout x r hx i j k hi hj hk fun _ h => hv h.2]
        by_contra hs
        exact hv (hb i j k hi hj hk (Option.ne_none_iff_isSome.mp hs))
    obtain ⟨vm', hfw, h', hfreed, hgrow, honly, hkeep, hoth, hko2⟩ := h1.freeTree hx hnoleaf
    refine ⟨vm', hfw, h', fun n a ha => ?_, fun b hb => hgrow b ((hrel (.inl rfl)).2 b hb),
      fun b hb => (honly b hb).elim (hshed.only b) fun ⟨n, hn⟩ => .inr ⟨n, hshed.shrink n b hn⟩,
      fun b hb => hkeep b (hk1 b hb), fun y r' hxy hy i j k hi hj hk => ?_, hko1.trans hko2⟩
    · rcases (hrel (.inl rfl)).1 n a ha with ha | ha
      · exact hfreed n a ha
      · exact hgrow a ha
    · rw [hoth y r' hxy hy i j k hi hj, hout y r' hy i j k hi hj hk fun e => absurd e hxy]
  · -- `sz = 0`: there are no leaves at all
    rw [if_neg hpos, Loop.pure_eq_ok, Loop.ok_bind]
    have hnoleaf : ∀ i j k, i < 512 → j < 512 → k < 512 → leafPte vm.mem r i j k = none := by
      intro i j k hi hj hk
      by_contra hs
      have := hb i j k hi hj hk (Option.ne_none_iff_isSome.mp hs)
      have h0 : PGROUNDUP sz = 0 := by
        rw [show sz = 0 by omega]
        decide
      omega
    obtain ⟨vm', hfw, h', hfreed, hgrow, honly, hkeep, hoth, hko⟩ := h.freeTree hx hnoleaf
    exact ⟨vm', hfw, h', hfreed, hgrow, honly, hkeep,
      fun y r' hxy hy i j k hi hj _ => hoth y r' hxy hy i j k hi hj, hko⟩

/-- `proc_freepagetable(pagetable, sz)` on a tree of the invariant whose leaves are the
trampoline's, the trapframe's and leaves below `PGROUNDUP(sz) ≤ TRAPFRAME`: no panic, and every
page the tree owned goes back to the allocator. -/
theorem VmInv.procFreepagetable (h : VmInv «end» k0 vm sp) (hx : (sp x).root = some r) (sz : Nat)
    (hsz : PGROUNDUP sz ≤ TRAPFRAME) (hb : LeavesBelow vm.mem r (PGROUNDUP sz)) :
    ∃ vm', Xv6.procFreepagetable «end» r sz vm = .ok vm' ∧
      VmInv «end» k0 vm' (Space.dropRoot sp x) ∧
      (∀ n a, pageAt vm.mem sp (.tbl x n) = some a → a ∈ vm'.kmem.freelist) ∧
      (∀ b, b ∈ vm.kmem.freelist → b ∈ vm'.kmem.freelist) ∧
      (∀ b, b ∈ vm'.kmem.freelist → b ∈ vm.kmem.freelist ∨
        ∃ n, pageAt vm.mem sp (.tbl x n) = some b) ∧
      (∀ b, HeldPage «end» vm sp b → HeldPage «end» vm' (Space.dropRoot sp x) b) ∧
      (∀ y r', y ≠ x → (sp y).root = some r' → ∀ i j k, i < 512 → j < 512 → k < 512 →
        leafPte vm'.mem r' i j k = leafPte vm.mem r' i j k) ∧ KeptOthers vm vm' sp x := by
  rw [Xv6.procFreepagetable]
  obtain ⟨vm1, hun1, h1, hnone1, hout1, hk1, hrel1, hshed1, hko1⟩ := h.uvmunmap hx (n := 1) false
    (by decide : TRAMPOLINE % PGSIZE = 0) (by decide) fun hc => absurd hc (by decide)
  rw [hun1, Loop.ok_bind]
  obtain ⟨vm2, hun2, h2, hnone2, hout2, hk2, hrel2, hshed2, hko2⟩ := h1.uvmunmap hx (n := 1) false
    (by decide : TRAPFRAME % PGSIZE = 0) (by decide) fun hc => absurd hc (by decide)
  rw [hun2, Loop.ok_bind]
  have hrel : Released vm vm2 sp x := (hrel1 (.inr (by decide))).trans (hrel2 (.inr le_rfl))
  -- with the trampoline and the trapframe unmapped, every leaf is below `PGROUNDUP(sz)`
  have hb2 : ∀ i j k, i < 512 → j < 512 → k < 512 → (leafPte vm2.mem r i j k).isSome →
      vaOf i j k < PGROUNDUP sz := by
    intro i j k hi hj hk hs
    have hTF : vaOf i j k ≠ TRAPFRAME := fun e => by
      rw [← leafAt_vaOf _ _ hi hj hk, hnone2 _ (vaOf_mod i j k) (by omega) (by rw [e]; decide)]
        at hs
      simp at hs
    rw [hout2 x r hx i j k hi hj hk fun _ hv => hTF (by
      have := aligned_add_le (by decide : TRAPFRAME % PGSIZE = 0) (vaOf_mod i j k)
      by_contra hne
      omega)] at hs
    have hTR : vaOf i j k ≠ TRAMPOLINE := fun e => by
      rw [← leafAt_vaOf _ _ hi hj hk, hnone1 _ (vaOf_mod i j k) (by omega) (by rw [e]; decide)]
        at hs
      simp at hs
    rw [hout1 x r hx i j k hi hj hk fun _ hv => hTR (by
      have := aligned_add_le (by decide : TRAMPOLINE % PGSIZE = 0) (vaOf_mod i j k)
      by_contra hne
      omega)] at hs
    rcases hb i j k hi hj hk hs with he | he | he
    · exact absurd he hTR
    · exact absurd he hTF
    · exact he
  obtain ⟨vm', hfree, h', hfreed, hgrow, honly, hkeep, hoth, hko3⟩ := h2.uvmfree hx sz hsz hb2
  have hshed := hshed1.trans hshed2
  refine ⟨vm', hfree, h', fun n a ha => ?_, fun b hb => hgrow b (hrel.2 b hb),
    fun b hb => (honly b hb).elim (hshed.only b) fun ⟨n, hn⟩ => .inr ⟨n, hshed.shrink n b hn⟩,
    fun b hb => hkeep b (hk2 b (hk1 b hb)), fun y r' hxy hy i j k hi hj hk => ?_,
    hko1.trans (hko2.trans hko3)⟩
  · rcases hrel.1 n a ha with ha | ha
    · exact hfreed n a ha
    · exact hgrow a ha
  · rw [hoth y r' hxy hy i j k hi hj hk, hout2 y r' hy i j k hi hj hk fun e => absurd e hxy,
      hout1 y r' hy i j k hi hj hk fun e => absurd e hxy]

end Tables

end Xv6
