import Xv6.Proofs.Sv39

/-!
# What a page table maps

The three-level tree below a root page, read off memory: the level-1 page under each root
entry, the level-0 page under each level-1 entry, and the valid leaf PTEs. `tablePage` names
every page of the tree by its position (`TPos`): the root, the two levels of page-table pages,
and the user pages the leaves below `TRAPFRAME` map. `walk` without allocation reads exactly
this tree.

A write to a page that is not a page-table page of the tree leaves the tree as it was
(`tablePage_congr`); the writes the page-table code makes to its own pages change it at one
position, as the lemmas at the end say.
-/

namespace Xv6

/-! ## Memory -/

namespace Vm

theorem write_mem (vm : Vm) (q i v p : Nat) :
    (vm.write q i v).mem p = if p = q then Function.update (vm.mem q) i v else vm.mem p := by
  simp only [write, Function.update_apply]

theorem zero_mem (vm : Vm) (q p : Nat) :
    (vm.zero q).mem p = if p = q then fun _ => 0 else vm.mem p := by
  simp only [zero, Function.update_apply]

theorem copy_mem (vm : Vm) (q s p : Nat) :
    (vm.copy q s).mem p = if p = q then vm.mem s else vm.mem p := by
  simp only [copy, Function.update_apply]

@[simp] theorem write_kmem (vm : Vm) (q i v : Nat) : (vm.write q i v).kmem = vm.kmem := rfl
@[simp] theorem write_calls (vm : Vm) (q i v : Nat) : (vm.write q i v).calls = vm.calls := rfl
@[simp] theorem zero_kmem (vm : Vm) (q : Nat) : (vm.zero q).kmem = vm.kmem := rfl
@[simp] theorem zero_calls (vm : Vm) (q : Nat) : (vm.zero q).calls = vm.calls := rfl
@[simp] theorem copy_kmem (vm : Vm) (q s : Nat) : (vm.copy q s).kmem = vm.kmem := rfl
@[simp] theorem copy_calls (vm : Vm) (q s : Nat) : (vm.copy q s).calls = vm.calls := rfl
@[simp] theorem kalloc_mem (vm : Vm) : vm.kalloc.1.mem = vm.mem := rfl

theorem kfree_eq_ok {«end» pa : Nat} {vm vm' : Vm} (h : vm.kfree «end» pa = .ok vm') :
    ∃ k, Xv6.kfree «end» vm.kmem pa = some k ∧
      vm' = { vm with kmem := k, calls := vm.calls ++ [.kfree pa] } := by
  unfold kfree at h
  split at h
  · rename_i k hk
    cases h
    exact ⟨k, hk, rfl⟩
  · cases h

end Vm

/-! ## The tree below a root -/

/-- The page a valid entry points to. -/
def child (w : Nat) : Option Nat := if Valid w then some (PTE2PA w) else none

/-- The level-1 page under entry `i` of the root `r`. -/
def midPage (mem : Nat → Nat → Nat) (r i : Nat) : Option Nat := child (mem r i)

/-- The level-0 page under entry `j` of the level-1 page under entry `i`. -/
def lowPage (mem : Nat → Nat → Nat) (r i j : Nat) : Option Nat :=
  (midPage mem r i).bind fun m => child (mem m j)

/-- The valid leaf PTE at entry `k` of that level-0 page. -/
def leafPte (mem : Nat → Nat → Nat) (r i j k : Nat) : Option Nat :=
  (lowPage mem r i j).bind fun l => if Valid (mem l k) then some (mem l k) else none

theorem child_eq_some {w p : Nat} : child w = some p ↔ Valid w ∧ PTE2PA w = p := by
  unfold child
  split <;> simp_all

theorem child_eq_none {w : Nat} : child w = none ↔ ¬ Valid w := by
  unfold child
  split <;> simp_all

/-- A position in the tree: the root, a page-table page of level 1 or 0, or the user page of a
leaf. -/
inductive TPos where
  | root
  | mid (i : Nat)
  | low (i j : Nat)
  | leaf (i j k : Nat)
  deriving DecidableEq

/-- The positions of page-table pages. -/
def TPos.isNode : TPos → Bool
  | .leaf .. => false
  | _ => true

/-- The indices of a leaf that maps a user page: below `TRAPFRAME`. -/
def UserLeaf (i j k : Nat) : Prop := i < 512 ∧ j < 512 ∧ k < 512 ∧ vaOf i j k < TRAPFRAME

instance (i j k : Nat) : Decidable (UserLeaf i j k) :=
  inferInstanceAs (Decidable (i < 512 ∧ j < 512 ∧ k < 512 ∧ vaOf i j k < TRAPFRAME))

/-- The page at each position of the tree below `r`. -/
def tablePage (mem : Nat → Nat → Nat) (r : Nat) : TPos → Option Nat
  | .root => some r
  | .mid i => if i < 512 then midPage mem r i else none
  | .low i j => if i < 512 ∧ j < 512 then lowPage mem r i j else none
  | .leaf i j k => if UserLeaf i j k then (leafPte mem r i j k).map PTE2PA else none

/-! ## `walk` without allocation reads the tree -/

theorem walkLevel_false (va level pagetable : Nat) (vm : Vm) :
    walkLevel false va level pagetable vm = (child (vm.mem pagetable (PX level va)), vm) := by
  unfold walkLevel child Valid
  by_cases h : vm.mem pagetable (PX level va) &&& PTE_V = 0 <;> simp [h]

theorem walk_false {pagetable va : Nat} (vm : Vm) (hva : va < MAXVA) :
    walk pagetable va false vm =
      .ok ((lowPage vm.mem pagetable (PX 2 va) (PX 1 va)).map (·, PX 0 va), vm) := by
  unfold walk
  rw [if_neg (Nat.not_le.mpr hva), walkLevel_false]
  unfold lowPage midPage
  cases child (vm.mem pagetable (PX 2 va)) with
  | none => rfl
  | some m =>
    simp only [walkLevel_false, Option.bind_some]
    cases child (vm.mem m (PX 1 va)) <;> rfl

/-! ## Frame: what the tree reads -/

section Congr

variable {mem mem' : Nat → Nat → Nat} {r : Nat}

theorem midPage_congr {i : Nat} (h : mem' r i = mem r i) : midPage mem' r i = midPage mem r i := by
  rw [midPage, midPage, h]

theorem lowPage_congr {i j : Nat} (h : mem' r i = mem r i)
    (hm : ∀ m, midPage mem r i = some m → mem' m j = mem m j) :
    lowPage mem' r i j = lowPage mem r i j := by
  unfold lowPage
  rw [midPage_congr h]
  cases hmid : midPage mem r i with
  | none => rfl
  | some m => simp only [Option.bind_some, hm m hmid]

theorem leafPte_congr {i j k : Nat} (h : mem' r i = mem r i)
    (hm : ∀ m, midPage mem r i = some m → mem' m j = mem m j)
    (hl : ∀ l, lowPage mem r i j = some l → mem' l k = mem l k) :
    leafPte mem' r i j k = leafPte mem r i j k := by
  unfold leafPte
  rw [lowPage_congr h hm]
  cases hlow : lowPage mem r i j with
  | none => rfl
  | some l => simp only [Option.bind_some, hl l hlow]

/-- Memory that agrees on the page-table pages of a tree gives the same leaves. -/
theorem leafPte_congr_nodes
    (h : ∀ n p, n.isNode = true → tablePage mem r n = some p → mem' p = mem p) {i j k : Nat}
    (hi : i < 512) (hj : j < 512) : leafPte mem' r i j k = leafPte mem r i j k :=
  leafPte_congr (congrFun (h .root r rfl rfl) i)
    (fun m hm => congrFun (h (.mid i) m rfl (by simp [tablePage, hi, hm])) j)
    (fun l hl => congrFun (h (.low i j) l rfl (by simp [tablePage, hi, hj, hl])) k)

/-- Memory that agrees on the page-table pages of a tree gives the same tree. -/
theorem tablePage_congr
    (h : ∀ n p, n.isNode = true → tablePage mem r n = some p → mem' p = mem p) :
    tablePage mem' r = tablePage mem r := by
  have hr : mem' r = mem r := h .root r rfl rfl
  funext n
  cases n with
  | root => rfl
  | mid i => simp only [tablePage, midPage_congr (congrFun hr i)]
  | low i j =>
    simp only [tablePage]
    split_ifs with hij
    · refine lowPage_congr (congrFun hr i) fun m hm => ?_
      exact congrFun (h (.mid i) m rfl (by simp [tablePage, hij.1, hm])) j
    · rfl
  | leaf i j k =>
    simp only [tablePage]
    split_ifs with hu
    · rw [leafPte_congr_nodes h hu.1 hu.2.1]
    · rfl

end Congr

/-! ## The writes the page-table code makes to its own tree

Each lemma takes the tree of `r` before (`mem`) and after (`mem'`) a write of `w` to one
entry, and says that the tree changed at one position. The page-table pages of the tree must be
distinct (`NodesInj`), which ownership gives. -/

/-- The page-table pages of the tree below `r` are distinct. -/
def NodesInj (mem : Nat → Nat → Nat) (r : Nat) : Prop :=
  ∀ n n' p, n.isNode = true → n'.isNode = true → tablePage mem r n = some p →
    tablePage mem r n' = some p → n = n'

section Writes

variable {mem mem' : Nat → Nat → Nat} {r w : Nat}

theorem NodesInj.mid_ne_root (h : NodesInj mem r) {i m : Nat} (hi : i < 512)
    (hm : midPage mem r i = some m) : m ≠ r := by
  rintro rfl
  cases h (.mid i) .root m rfl rfl (by simp [tablePage, hi, hm]) rfl

theorem NodesInj.low_ne_root (h : NodesInj mem r) {i j l : Nat} (hi : i < 512) (hj : j < 512)
    (hl : lowPage mem r i j = some l) : l ≠ r := by
  rintro rfl
  cases h (.low i j) .root l rfl rfl (by simp [tablePage, hi, hj, hl]) rfl

theorem NodesInj.low_ne_mid (h : NodesInj mem r) {i j i' l : Nat} (hi : i < 512) (hj : j < 512)
    (hi' : i' < 512) (hl : lowPage mem r i j = some l) : midPage mem r i' ≠ some l := by
  intro hm
  cases h (.low i j) (.mid i') l rfl rfl (by simp [tablePage, hi, hj, hl])
    (by simp [tablePage, hi', hm])

theorem NodesInj.mid_inj (h : NodesInj mem r) {i i' m : Nat} (hi : i < 512) (hi' : i' < 512)
    (hm : midPage mem r i = some m) (hm' : midPage mem r i' = some m) : i = i' := by
  have := h (.mid i) (.mid i') m rfl rfl (by simp [tablePage, hi, hm])
    (by simp [tablePage, hi', hm'])
  cases this
  rfl

theorem NodesInj.low_inj (h : NodesInj mem r) {i j i' j' l : Nat} (hi : i < 512) (hj : j < 512)
    (hi' : i' < 512) (hj' : j' < 512) (hl : lowPage mem r i j = some l)
    (hl' : lowPage mem r i' j' = some l) : i = i' ∧ j = j' := by
  have := h (.low i j) (.low i' j') l rfl rfl (by simp [tablePage, hi, hj, hl])
    (by simp [tablePage, hi', hj', hl'])
  cases this
  exact ⟨rfl, rfl⟩

/-! ### A root entry -/

section Root

variable (hinj : NodesInj mem r) {i : Nat} (hi : i < 512)
  (hmem : ∀ p, mem' p = if p = r then Function.update (mem r) i w else mem p)
  (hnew : ∀ pg, child w = some pg → pg ≠ r ∧ ∀ j, ¬ Valid (mem pg j))
  (hold : ∀ j, lowPage mem r i j = none)
include hmem

omit hinj hi in
theorem mem_writeRoot_of_ne {p : Nat} (hp : p ≠ r) : mem' p = mem p := by simp [hmem, hp]

include hinj hnew hold

/-- Entry `i` of the root is written with `w`, whose subtree is empty (it is `0`, or it points
to a page none of whose entries is valid), over an entry whose subtree was empty: no level-0
page moves. -/
theorem lowPage_writeRoot {i' j : Nat} (hi' : i' < 512) :
    lowPage mem' r i' j = lowPage mem r i' j := by
  have hr : mem' r = Function.update (mem r) i w := by simp [hmem]
  by_cases hii : i' = i
  · subst hii
    rw [hold]
    simp only [lowPage, midPage, hr, Function.update_self]
    cases hc : child w with
    | none => rfl
    | some pg =>
      obtain ⟨hpg, hinv⟩ := hnew pg hc
      simp [mem_writeRoot_of_ne hmem hpg, child_eq_none.mpr (hinv j)]
  · -- the level-1 page at `i'` is not the root
    refine lowPage_congr (by rw [hr, Function.update_of_ne hii]) fun m hm => ?_
    rw [mem_writeRoot_of_ne hmem (hinj.mid_ne_root hi' hm)]

/-- No leaf moves either. -/
theorem leafPte_writeRoot {i' j k : Nat} (hi' : i' < 512) (hj : j < 512) :
    leafPte mem' r i' j k = leafPte mem r i' j k := by
  unfold leafPte
  rw [lowPage_writeRoot hinj hmem hnew hold hi']
  cases hl : lowPage mem r i' j with
  | none => rfl
  | some l => simp only [Option.bind_some, mem_writeRoot_of_ne hmem (hinj.low_ne_root hi' hj hl)]

include hi in
/-- The level-1 page at `i` becomes the one `w` points to. -/
theorem tablePage_writeRoot :
    tablePage mem' r = Function.update (tablePage mem r) (.mid i) (child w) := by
  have hr : mem' r = Function.update (mem r) i w := by simp [hmem]
  funext n
  cases n with
  | root => simp [tablePage]
  | mid i' =>
    by_cases hii : i' = i
    · subst hii
      simp [tablePage, hi, midPage, hr]
    · have hne : TPos.mid i' ≠ .mid i := by simp [hii]
      simp [tablePage, Function.update_of_ne hne, midPage, hr, Function.update_of_ne hii]
  | low i' j =>
    simp only [tablePage, Function.update_of_ne (show TPos.low i' j ≠ .mid i by simp)]
    split_ifs with hij
    · exact lowPage_writeRoot hinj hmem hnew hold hij.1
    · rfl
  | leaf i' j k =>
    simp only [tablePage, Function.update_of_ne (show TPos.leaf i' j k ≠ .mid i by simp)]
    split_ifs with hu
    · rw [leafPte_writeRoot hinj hmem hnew hold hu.1 hu.2.1]
    · rfl

end Root

/-! ### An entry of a level-1 page -/

section Mid

variable (hinj : NodesInj mem r) {i j m : Nat} (hi : i < 512) (hj : j < 512)
  (hm : midPage mem r i = some m)
  (hmem : ∀ p, mem' p = if p = m then Function.update (mem m) j w else mem p)
  (hnew : ∀ pg, child w = some pg → pg ≠ m ∧ ∀ k, ¬ Valid (mem pg k))
  (hold : ∀ k, leafPte mem r i j k = none)
include hmem

omit hi hj hm in
theorem mem_writeMid_of_ne {p : Nat} (hp : p ≠ m) : mem' p = mem p := by simp [hmem, hp]

include hinj hi hm

theorem midPage_writeMid (i' : Nat) : midPage mem' r i' = midPage mem r i' :=
  midPage_congr (congrFun (mem_writeMid_of_ne hmem (hinj.mid_ne_root hi hm).symm) i')

/-- Entry `j` of the level-1 page under root entry `i` is written with `w`: the level-0 page at
`(i, j)` becomes the one `w` points to, and no other moves. -/
theorem lowPage_writeMid {i' j' : Nat} (hi' : i' < 512) :
    lowPage mem' r i' j' = if (i', j') = (i, j) then child w else lowPage mem r i' j' := by
  have hr : mem' r = mem r := mem_writeMid_of_ne hmem (hinj.mid_ne_root hi hm).symm
  split_ifs with he
  · obtain ⟨rfl, rfl⟩ := Prod.mk.inj he
    simp [lowPage, midPage_writeMid hinj hi hm hmem, hm, hmem]
  · refine lowPage_congr (congrFun hr i') fun m' hm' => ?_
    by_cases hii : i' = i
    · subst hii
      rw [hm] at hm'
      cases hm'
      have hjj : j' ≠ j := fun e => he (by rw [e])
      simp [hmem, Function.update_of_ne hjj]
    · -- another level-1 page is not `m`
      rw [mem_writeMid_of_ne hmem fun e => hii (hinj.mid_inj hi' hi (e ▸ hm') hm)]

include hnew hold

/-- No leaf moves: below `(i, j)` there were none, and `w`'s page has none. -/
theorem leafPte_writeMid {i' j' k : Nat} (hi' : i' < 512) (hj' : j' < 512) :
    leafPte mem' r i' j' k = leafPte mem r i' j' k := by
  unfold leafPte
  rw [lowPage_writeMid hinj hi hm hmem hi']
  split_ifs with he
  · obtain ⟨rfl, rfl⟩ := Prod.mk.inj he
    have := hold k
    unfold leafPte at this
    rw [this]
    cases hc : child w with
    | none => rfl
    | some pg =>
      obtain ⟨hpg, hinv⟩ := hnew pg hc
      simp [mem_writeMid_of_ne hmem hpg, hinv k]
  · cases hl : lowPage mem r i' j' with
    | none => rfl
    | some l =>
      have hlm : l ≠ m := fun e => hinj.low_ne_mid hi' hj' hi hl (e ▸ hm)
      simp only [Option.bind_some, mem_writeMid_of_ne hmem hlm]

include hj in
theorem tablePage_writeMid :
    tablePage mem' r = Function.update (tablePage mem r) (.low i j) (child w) := by
  funext n
  cases n with
  | root => simp [tablePage]
  | mid i' => simp [tablePage, midPage_writeMid hinj hi hm hmem]
  | low i' j' =>
    by_cases he : (i', j') = (i, j)
    · obtain ⟨rfl, rfl⟩ := Prod.mk.inj he
      simp [tablePage, hi, hj, lowPage_writeMid hinj hi hm hmem hi]
    · have hne : TPos.low i' j' ≠ .low i j := fun e => he (by cases e; rfl)
      simp only [tablePage, Function.update_of_ne hne]
      split_ifs with hij
      · rw [lowPage_writeMid hinj hi hm hmem hij.1, if_neg he]
      · rfl
  | leaf i' j' k =>
    simp only [tablePage, Function.update_of_ne (show TPos.leaf i' j' k ≠ .low i j by simp)]
    split_ifs with hu
    · rw [leafPte_writeMid hinj hi hm hmem hnew hold hu.1 hu.2.1]
    · rfl

end Mid

/-! ### A leaf -/

section Low

variable (hinj : NodesInj mem r) {i j k l : Nat} (hi : i < 512) (hj : j < 512)
  (hl : lowPage mem r i j = some l)
  (hmem : ∀ p, mem' p = if p = l then Function.update (mem l) k w else mem p)
include hinj hi hj hl hmem

theorem lowPage_writeLow {i' j' : Nat} (hi' : i' < 512) :
    lowPage mem' r i' j' = lowPage mem r i' j' := by
  have hnode : ∀ p, p ≠ l → mem' p = mem p := fun p hp => by simp [hmem, hp]
  refine lowPage_congr (congrFun (hnode r (hinj.low_ne_root hi hj hl).symm) i') fun m hm => ?_
  exact congrFun (hnode m fun e => hinj.low_ne_mid hi hj hi' hl (e ▸ hm)) j'

/-- Entry `k` of the level-0 page under `(i, j)` is written with `w`: the leaf there becomes
`w` when `w` is valid and goes when it is not, and no other leaf moves. -/
theorem leafPte_writeLow {i' j' k' : Nat} (hi' : i' < 512) (hj' : j' < 512) :
    leafPte mem' r i' j' k' = if (i', j', k') = (i, j, k) then
      (if Valid w then some w else none) else leafPte mem r i' j' k' := by
  unfold leafPte
  rw [lowPage_writeLow hinj hi hj hl hmem hi']
  by_cases he : (i', j', k') = (i, j, k)
  · obtain ⟨rfl, rfl, rfl⟩ : i' = i ∧ j' = j ∧ k' = k := by simpa using he
    have hw : mem' l k' = w := by simp [hmem]
    simp [hl, hw]
  · rw [if_neg he]
    cases hl' : lowPage mem r i' j' with
    | none => rfl
    | some l' =>
      simp only [Option.bind_some]
      by_cases hll : l' = l
      · subst hll
        obtain ⟨rfl, rfl⟩ := hinj.low_inj hi' hj' hi hj hl' hl
        have hkk : k' ≠ k := fun e => he (by rw [e])
        simp [hmem, Function.update_of_ne hkk]
      · simp [hmem, hll]

theorem tablePage_writeLow :
    tablePage mem' r = Function.update (tablePage mem r) (.leaf i j k)
      (if UserLeaf i j k ∧ Valid w then some (PTE2PA w) else none) := by
  funext n
  cases n with
  | root => simp [tablePage]
  | mid i' =>
    have hr : mem' r = mem r := by simp [hmem, (hinj.low_ne_root hi hj hl).symm]
    simp [tablePage, midPage_congr (congrFun hr i')]
  | low i' j' =>
    simp only [tablePage, Function.update_of_ne (show TPos.low i' j' ≠ .leaf i j k by simp)]
    split_ifs with hij
    · exact lowPage_writeLow hinj hi hj hl hmem hij.1
    · rfl
  | leaf i' j' k' =>
    by_cases he : (i', j', k') = (i, j, k)
    · obtain ⟨rfl, rfl, rfl⟩ : i' = i ∧ j' = j ∧ k' = k := by simpa using he
      simp only [tablePage, Function.update_self, leafPte_writeLow hinj hi hj hl hmem hi hj,
        if_true]
      by_cases hu : UserLeaf i' j' k' <;> by_cases hw : Valid w <;> simp [hu, hw]
    · have hne : TPos.leaf i' j' k' ≠ .leaf i j k := fun e => he (by cases e; rfl)
      simp only [tablePage, Function.update_of_ne hne]
      split_ifs with hu
      · rw [leafPte_writeLow hinj hi hj hl hmem hu.1 hu.2.1, if_neg he]
      · rfl

end Low

theorem NodesInj.congr (h : NodesInj mem r)
    (hagree : ∀ n p, n.isNode = true → tablePage mem r n = some p → mem' p = mem p) :
    NodesInj mem' r := by
  unfold NodesInj
  rw [tablePage_congr hagree]
  exact h

end Writes

/-! ## Interior entries

`freewalk` takes a valid entry with none of `R`, `W`, `X` for a pointer to a table and any
other valid entry for a leaf; the entries of the root and the level-1 pages must be of the
first kind. Each write of the page-table code keeps that. -/

/-- The interior entries of the tree below `r` point to tables. -/
structure Interior (mem : Nat → Nat → Nat) (r : Nat) : Prop where
  root : ∀ i < 512, Valid (mem r i) → mem r i &&& (PTE_R ||| PTE_W ||| PTE_X) = 0
  mid : ∀ i < 512, ∀ m, midPage mem r i = some m → ∀ j < 512, Valid (mem m j) →
    mem m j &&& (PTE_R ||| PTE_W ||| PTE_X) = 0

section Interior

variable {mem mem' : Nat → Nat → Nat} {r w : Nat}

theorem Interior.congr (h : Interior mem r)
    (hagree : ∀ n p, n.isNode = true → tablePage mem r n = some p → mem' p = mem p) :
    Interior mem' r := by
  have hr : mem' r = mem r := hagree .root r rfl rfl
  refine ⟨fun i hi hv => ?_, fun i hi m hm j hj hv => ?_⟩
  · rw [hr] at hv ⊢
    exact h.root i hi hv
  · rw [midPage_congr (congrFun hr i)] at hm
    have hmm : mem' m = mem m := hagree (.mid i) m rfl (by simp [tablePage, hi, hm])
    rw [hmm] at hv ⊢
    exact h.mid i hi m hm j hj hv

theorem Interior.writeRoot (h : Interior mem r) (hinj : NodesInj mem r) {i : Nat}
    (hmem : ∀ p, mem' p = if p = r then Function.update (mem r) i w else mem p)
    (hw : Valid w → w &&& (PTE_R ||| PTE_W ||| PTE_X) = 0)
    (hnew : ∀ pg, child w = some pg → pg ≠ r ∧ ∀ j, ¬ Valid (mem pg j)) :
    Interior mem' r := by
  have hr : mem' r = Function.update (mem r) i w := by simp [hmem]
  refine ⟨fun i' hi' hv => ?_, fun i' hi' m hm j _ hv => ?_⟩
  · rw [hr, Function.update_apply] at hv ⊢
    split_ifs at hv ⊢
    · exact hw hv
    · exact h.root i' hi' hv
  · by_cases hii : i' = i
    · -- the new level-1 page has no valid entry
      subst hii
      rw [midPage, hr, Function.update_self] at hm
      obtain ⟨hmr, hinv⟩ := hnew m hm
      rw [mem_writeRoot_of_ne hmem hmr] at hv
      exact absurd hv (hinv j)
    · rw [show midPage mem' r i' = midPage mem r i' from
        midPage_congr (by rw [hr, Function.update_of_ne hii])] at hm
      rw [mem_writeRoot_of_ne hmem (hinj.mid_ne_root hi' hm)] at hv ⊢
      exact h.mid i' hi' m hm j ‹_› hv

theorem Interior.writeMid (h : Interior mem r) (hinj : NodesInj mem r) {i j m : Nat}
    (hi : i < 512) (hm : midPage mem r i = some m)
    (hmem : ∀ p, mem' p = if p = m then Function.update (mem m) j w else mem p)
    (hw : Valid w → w &&& (PTE_R ||| PTE_W ||| PTE_X) = 0) : Interior mem' r := by
  have hr : mem' r = mem r := mem_writeMid_of_ne hmem (hinj.mid_ne_root hi hm).symm
  refine ⟨fun i' hi' hv => ?_, fun i' hi' m' hm' j' hj' hv => ?_⟩
  · rw [hr] at hv ⊢
    exact h.root i' hi' hv
  · rw [midPage_writeMid hinj hi hm hmem] at hm'
    by_cases hmm : m' = m
    · subst hmm
      rw [hmem, if_pos rfl, Function.update_apply] at hv ⊢
      split_ifs at hv ⊢
      · exact hw hv
      · exact h.mid i' hi' m' hm' j' hj' hv
    · rw [mem_writeMid_of_ne hmem hmm] at hv ⊢
      exact h.mid i' hi' m' hm' j' hj' hv

theorem Interior.writeLow (h : Interior mem r) (hinj : NodesInj mem r) {i j k l : Nat}
    (hi : i < 512) (hj : j < 512) (hl : lowPage mem r i j = some l)
    (hmem : ∀ p, mem' p = if p = l then Function.update (mem l) k w else mem p) :
    Interior mem' r := by
  have hnode : ∀ p, p ≠ l → mem' p = mem p := fun p hp => by simp [hmem, hp]
  have hr : mem' r = mem r := hnode r (hinj.low_ne_root hi hj hl).symm
  refine ⟨fun i' hi' hv => ?_, fun i' hi' m' hm' j' hj' hv => ?_⟩
  · rw [hr] at hv ⊢
    exact h.root i' hi' hv
  · rw [midPage_congr (congrFun hr i')] at hm'
    have hml : m' ≠ l := fun e => hinj.low_ne_mid hi hj hi' hl (e ▸ hm')
    rw [hnode m' hml] at hv ⊢
    exact h.mid i' hi' m' hm' j' hj' hv

end Interior

end Xv6
