import Mathlib
import Xv6.Proofs.VmOwn
import Xv6.Lib.Loop

/-!
# Mapping and unmapping user pages

`mappages` of one page, the loop of `uvmunmap`, and `uvmalloc` and `uvmdealloc` built on them,
run on the tree of one holder `x` under the ownership invariant `VmInv`. Each is total on the
trees of the invariant: `walk` is called below `MAXVA` only, a leaf is installed only where
there is none (so `mappages: remap` is not reached), and a page is freed only when a leaf below
`TRAPFRAME` owns it. What each call does to the tree of `x` is said leaf by leaf, by address;
every other tree keeps its leaves (`LeavesOut`).
-/

namespace Xv6

/-- The leaf PTE that maps the page of `va`. -/
def leafAt (mem : Nat → Nat → Nat) (r va : Nat) : Option Nat :=
  leafPte mem r (PX 2 va) (PX 1 va) (PX 0 va)

theorem leafAt_vaOf (mem : Nat → Nat → Nat) (r : Nat) {i j k : Nat} (hi : i < 512) (hj : j < 512)
    (hk : k < 512) : leafAt mem r (vaOf i j k) = leafPte mem r i j k := by
  rw [leafAt, PX_two_vaOf hi hj hk, PX_one_vaOf i hj hk, PX_zero_vaOf i j hk]

theorem PGROUNDDOWN_of_mod {va : Nat} (hva : va % PGSIZE = 0) : PGROUNDDOWN va = va := by
  unfold PGROUNDDOWN
  exact Nat.div_mul_cancel (Nat.dvd_of_mod_eq_zero hva)

/-- A page-aligned address below `MAXVA` is the address of its indices. -/
theorem vaOf_PX_of_mod {va : Nat} (hva : va % PGSIZE = 0) (hmax : va < MAXVA) :
    vaOf (PX 2 va) (PX 1 va) (PX 0 va) = va := by
  rw [vaOf_PX hmax, PGROUNDDOWN_of_mod hva]

theorem userLeaf_PX {va : Nat} (hva : va % PGSIZE = 0) (hmax : va < MAXVA) :
    UserLeaf (PX 2 va) (PX 1 va) (PX 0 va) ↔ va < TRAPFRAME := by
  simp only [UserLeaf, PX_lt, vaOf_PX_of_mod hva hmax, true_and]

/-- Indices below `512` are equal when their addresses are. -/
theorem vaOf_eq_iff {i j k i' j' k' : Nat} (hj : j < 512) (hk : k < 512) (hj' : j' < 512)
    (hk' : k' < 512) : vaOf i j k = vaOf i' j' k' ↔ (i, j, k) = (i', j', k') := by
  constructor
  · intro h
    obtain ⟨rfl, rfl, rfl⟩ := vaOf_inj hj hk hj' hk' h
    rfl
  · intro h
    cases h
    rfl

/-- Two page-aligned addresses are a page apart at least. -/
theorem aligned_add_le {a v : Nat} (ha : a % PGSIZE = 0) (hv : v % PGSIZE = 0) (h : a < v) :
    a + PGSIZE ≤ v := by
  unfold PGSIZE at *
  omega

theorem PGROUNDUP_sub_div_mul (a b : Nat) :
    (PGROUNDUP a - PGROUNDUP b) / PGSIZE * PGSIZE = PGROUNDUP a - PGROUNDUP b := by
  have ha := PGROUNDUP_mod a
  have hb := PGROUNDUP_mod b
  unfold PGSIZE at *
  omega

theorem PGROUNDUP_of_mod {v : Nat} (hv : v % PGSIZE = 0) : PGROUNDUP v = v :=
  le_antisymm (PGROUNDUP_le_of_mod hv le_rfl) (le_PGROUNDUP v)

/-- The pages `uvmalloc` maps from a page-aligned `oldsz` end at `PGROUNDUP(newsz)`. -/
theorem uvmalloc_count {oldsz : Nat} (newsz : Nat) (hold : oldsz % PGSIZE = 0)
    (hle : oldsz ≤ PGROUNDUP newsz) :
    oldsz + (newsz - oldsz + PGSIZE - 1) / PGSIZE * PGSIZE = PGROUNDUP newsz := by
  unfold PGROUNDUP PGSIZE at *
  omega

theorem Vm.kfree_write («end» : Nat) (vm : Vm) (q i v a : Nat) :
    (vm.write q i v).kfree «end» a = (vm.kfree «end» a).map fun vm => vm.write q i v := by
  unfold Vm.kfree
  rw [Vm.write_kmem]
  cases Xv6.kfree «end» vm.kmem a <;> rfl

/-- Every leaf of the tree below `r` maps the trampoline or the trapframe or lies below `b`. -/
def LeavesBelow (mem : Nat → Nat → Nat) (r b : Nat) : Prop :=
  ∀ i j k, i < 512 → j < 512 → k < 512 → (leafPte mem r i j k).isSome →
    vaOf i j k = TRAMPOLINE ∨ vaOf i j k = TRAPFRAME ∨ vaOf i j k < b

theorem vaOf_lt_MAXVA {i j k : Nat} (hi : i < 256) (hj : j < 512) (hk : k < 512) :
    vaOf i j k < MAXVA := by
  rw [MAXVA_eq]
  unfold vaOf
  omega

/-- Between the bound and `TRAPFRAME` there is no leaf. -/
theorem LeavesBelow.leafAt_eq_none {mem : Nat → Nat → Nat} {r b : Nat} (h : LeavesBelow mem r b)
    {v : Nat} (hv : v % PGSIZE = 0) (hb : b ≤ v) (htf : v < TRAPFRAME) : leafAt mem r v = none := by
  have hmax : v < MAXVA := lt_trans htf (by decide)
  by_contra hs
  rcases h _ _ _ (PX_lt 2 v) (PX_lt 1 v) (PX_lt 0 v) (Option.ne_none_iff_isSome.mp hs) with
    he | he | he <;> rw [vaOf_PX_of_mod hv hmax] at he
  · rw [he] at htf
    exact absurd htf (by decide)
  · rw [he] at htf
    exact lt_irrefl _ htf
  · omega

/-- Every page below `b` is mapped. -/
def Dense (mem : Nat → Nat → Nat) (r b : Nat) : Prop :=
  ∀ v, v % PGSIZE = 0 → v < b → (leafAt mem r v).isSome

/-- A bound lowers over a range with no leaves. -/
theorem LeavesBelow.lower {mem : Nat → Nat → Nat} {r a b : Nat} (h : LeavesBelow mem r a)
    (hnone : ∀ v, v % PGSIZE = 0 → b ≤ v → v < a → leafAt mem r v = none) :
    LeavesBelow mem r b := by
  intro i j k hi hj hk hs
  rcases h i j k hi hj hk hs with he | he | he
  · exact .inl he
  · exact .inr (.inl he)
  · refine .inr (.inr ?_)
    by_contra hge
    rw [← leafAt_vaOf _ _ hi hj hk, hnone _ (vaOf_mod i j k) (by omega) he] at hs
    exact absurd hs (by simp)

theorem LeavesBelow.mono {mem : Nat → Nat → Nat} {r b b' : Nat} (h : LeavesBelow mem r b)
    (hb : b ≤ b') : LeavesBelow mem r b' := fun i j k hi hj hk hs =>
  (h i j k hi hj hk hs).imp_right (Or.imp_right fun h => lt_of_lt_of_le h hb)

/-- `uvmunmap`'s loop only adds calls to the allocator (its frees). -/
theorem uvmunmapLoop_calls {«end» : Nat} (r : Nat) (doFree : Bool) (n : Nat) :
    ∀ a vm vm', uvmunmapLoop «end» r doFree n a vm = .ok vm' →
      ∃ evs, vm'.calls = vm.calls ++ evs := by
  induction n with
  | zero =>
    intro a vm vm' h
    cases h
    exact ⟨[], by simp⟩
  | succ n ih =>
    intro a vm vm' h
    by_cases hmax : MAXVA ≤ a
    · simp [uvmunmapLoop, walk, hmax] at h
    rw [uvmunmapLoop, walk_false _ (Nat.not_le.mp hmax), Loop.ok_bind] at h
    cases hlow : lowPage vm.mem r (PX 2 a) (PX 1 a) with
    | none =>
      simp only [hlow, Option.map_none] at h
      exact ih _ vm vm' h
    | some l =>
      simp only [hlow, Option.map_some] at h
      split_ifs at h with hv hd
      · exact ih _ vm vm' h
      · -- the leaf's page goes to `kfree`
        obtain ⟨vm1, hk1, hrun⟩ := Loop.bind_eq_ok.mp h
        obtain ⟨k, -, rfl⟩ := Vm.kfree_eq_ok hk1
        obtain ⟨evs, hevs⟩ := ih _ _ vm' hrun
        exact ⟨[.kfree (PTE2PA (vm.mem l (PX 0 a)))] ++ evs,
          by rw [hevs, Vm.write_calls, List.append_assoc]⟩
      · obtain ⟨evs, hevs⟩ := ih _ _ vm' h
        exact ⟨evs, hevs⟩

/-- `uvmdealloc` only adds calls to the allocator. -/
theorem uvmdealloc_calls {«end» r oldsz newsz sz : Nat} {vm vm' : Vm}
    (h : Xv6.uvmdealloc «end» r oldsz newsz vm = .ok (sz, vm')) :
    ∃ evs, vm'.calls = vm.calls ++ evs := by
  unfold Xv6.uvmdealloc at h
  split_ifs at h with hle hlt
  · cases h
    exact ⟨[], by simp⟩
  · obtain ⟨vm1, hun, hret⟩ := Loop.bind_eq_ok.mp h
    cases hret
    unfold Xv6.uvmunmap at hun
    split_ifs at hun
    exact uvmunmapLoop_calls r true _ _ vm _ hun
  · cases h
    exact ⟨[], by simp⟩

section Map

variable {«end» : Nat} {k0 : Kmem} {ι : Type} {vm : Vm} {sp : ι → Space} {x : ι} {r : Nat}

/-- Read by address: a leaf of `x` outside `S` did not move. -/
theorem LeavesOut.leafAt {vm' : Vm} {S : Nat → Prop} (h : LeavesOut vm vm' sp x S)
    (hx : (sp x).root = some r) {v : Nat} (hv : v % PGSIZE = 0) (hmax : v < MAXVA) (hS : ¬ S v) :
    leafAt vm'.mem r v = leafAt vm.mem r v :=
  h x r hx _ _ _ (PX_lt 2 v) (PX_lt 1 v) (PX_lt 0 v) fun _ => by rwa [vaOf_PX_of_mod hv hmax]

/-- The bound on the leaves of `x` after a change of its leaves at the addresses `S` only. -/
theorem LeavesBelow.of_out {vm' : Vm} {S : Nat → Prop} {b b' : Nat} (h : LeavesBelow vm.mem r b)
    (hout : LeavesOut vm vm' sp x S) (hx : (sp x).root = some r) (hb : b ≤ b')
    (hS : ∀ v, v % PGSIZE = 0 → S v → v < MAXVA ∧
      ((leafAt vm'.mem r v).isSome → v = TRAMPOLINE ∨ v = TRAPFRAME ∨ v < b')) :
    LeavesBelow vm'.mem r b' := by
  intro i j k hi hj hk hs
  by_cases hSv : S (vaOf i j k)
  · obtain ⟨hmax, himp⟩ := hS _ (vaOf_mod i j k) hSv
    have hi' : i < 256 := by
      by_contra hge
      rw [MAXVA_eq] at hmax
      unfold vaOf at hmax
      omega
    rw [← leafAt_vaOf _ _ hi hj hk] at hs
    exact himp hs
  · rw [hout x r hx i j k hi hj hk fun _ => hSv] at hs
    exact (h.mono hb) i j k hi hj hk hs

/-- A tree of the invariant maps fewer pages than there are: if every page below `a` is mapped,
`a` is below `TRAPFRAME`, since the leaves below `TRAPFRAME` own distinct pages of the
allocator. -/
theorem VmInv.room (h : VmInv «end» k0 vm sp) (hx : (sp x).root = some r) {a : Nat}
    (hdense : ∀ v, v % PGSIZE = 0 → v < a → (leafAt vm.mem r v).isSome) : a < TRAPFRAME := by
  by_contra hge
  -- the page mapped at the `m`-th page of the address space
  let pg : Nat → Nat := fun m => ((leafAt vm.mem r (m * PGSIZE)).map PTE2PA).getD 0
  have hlt : ∀ m, m < TRAPFRAME / PGSIZE → m * PGSIZE < TRAPFRAME := by
    intro m hm
    rw [TRAPFRAME_eq] at hm ⊢
    unfold PGSIZE at *
    omega
  have hown : ∀ m, m < TRAPFRAME / PGSIZE → pageAt vm.mem sp
      (.tbl x (.leaf (PX 2 (m * PGSIZE)) (PX 1 (m * PGSIZE)) (PX 0 (m * PGSIZE)))) = some (pg m) := by
    intro m hm
    have hal : m * PGSIZE % PGSIZE = 0 := Nat.mul_mod_left m PGSIZE
    have htf := hlt m hm
    have hu := (userLeaf_PX hal (lt_trans htf (by decide))).mpr htf
    obtain ⟨w, hw⟩ := Option.isSome_iff_exists.mp (hdense _ hal (by omega))
    simp only [leafAt] at hw
    simp [pageAt, hx, tablePage, hu, hw, pg, leafAt]
  have hinj : Set.InjOn (fun m => getRefIndex (pg m)) (Finset.range (TRAPFRAME / PGSIZE) : Set Nat) := by
    intro m₁ hm₁ m₂ hm₂ he
    simp only [Finset.coe_range, Set.mem_Iio] at hm₁ hm₂
    have h₁ := hown m₁ hm₁
    have h₂ := hown m₂ hm₂
    have hpg : pg m₁ = pg m₂ :=
      (h.owned _ _ h₁).1.index_inj (h.owned _ _ h₂).1 he
    rw [hpg] at h₁
    have hpos := h.excl.inj _ _ _ h₁ h₂
    simp only [Pos.tbl.injEq, TPos.leaf.injEq, true_and] at hpos
    have hva : vaOf (PX 2 (m₁ * PGSIZE)) (PX 1 (m₁ * PGSIZE)) (PX 0 (m₁ * PGSIZE)) =
        vaOf (PX 2 (m₂ * PGSIZE)) (PX 1 (m₂ * PGSIZE)) (PX 0 (m₂ * PGSIZE)) := by
      rw [hpos.1, hpos.2.1, hpos.2.2]
    have hT : TRAPFRAME < MAXVA := by decide
    rw [vaOf_PX_of_mod (Nat.mul_mod_left _ _) (lt_trans (hlt m₁ hm₁) hT),
      vaOf_PX_of_mod (Nat.mul_mod_left _ _) (lt_trans (hlt m₂ hm₂) hT)] at hva
    exact Nat.eq_of_mul_eq_mul_right PGSIZE_pos hva
  have hmaps : Set.MapsTo (fun m => getRefIndex (pg m)) (Finset.range (TRAPFRAME / PGSIZE) : Set Nat)
      (Finset.range NPAGES : Set Nat) := by
    intro m hm
    simp only [Finset.coe_range, Set.mem_Iio] at hm ⊢
    exact (h.owned _ _ (hown m hm)).1.index_lt
  have hcard := Finset.card_le_card_of_injOn _ hmaps hinj
  simp only [Finset.card_range] at hcard
  exact absurd hcard (by decide)

/-- A write to a level-0 page of the tree of `x` writes only in that tree. -/
theorem writesIn_write (hx : (sp x).root = some r) {i j l : Nat} (hi : i < 512) (hj : j < 512)
    (hl : lowPage vm.mem r i j = some l) (k w : Nat) : WritesIn vm (vm.write l k w) sp x := by
  intro p hp
  have hpl : p = l := by
    by_contra hne
    exact hp (by simp [Vm.write_mem, hne])
  exact .inl ⟨.low i j, by simp [pageAt, hx, tablePage, hi, hj, hl, hpl]⟩

variable [DecidableEq ι]

/-- A write of `w` to entry `k` of the level-0 page `l` at `(i, j)` of the tree of `x`: the
position of the leaf `(i, j, k)` then owns the page of `w` when it is a valid user leaf, and no
other leaf of any tree moves. -/
theorem VmInv.leafWrite (h : VmInv «end» k0 vm sp) (hx : (sp x).root = some r) {i j k l : Nat}
    (hi : i < 512) (hj : j < 512) (hk : k < 512) (hl : lowPage vm.mem r i j = some l) (w : Nat) :
    pageAt (vm.write l k w).mem sp = Function.update (pageAt vm.mem sp) (.tbl x (.leaf i j k))
        (if UserLeaf i j k ∧ Valid w then some (PTE2PA w) else none) ∧
      (∀ y r', (sp y).root = some r' → Interior (vm.write l k w).mem r') ∧
      LeavesOut vm (vm.write l k w) sp x (· = vaOf i j k) ∧
      leafPte (vm.write l k w).mem r i j k = if Valid w then some w else none := by
  have hinj := h.nodesInj hx
  have hmem := Vm.write_mem vm l k w
  have hloc := tablePage_writeLow hinj hi hj hl hmem
  have hw := writesIn_write hx hi hj hl k w
  obtain ⟨hpage, hint, hother⟩ :=
    h.frame hx hw hloc ((h.interior x r hx).writeLow hinj hi hj hl hmem)
  refine ⟨hpage, hint, fun y r' hy i' j' k' hi' hj' hk' hS => ?_, ?_⟩
  · by_cases hxy : y = x
    · subst hxy
      rw [hx] at hy
      cases hy
      have hne : (i', j', k') ≠ (i, j, k) := fun e =>
        hS rfl ((vaOf_eq_iff hj' hk' hj hk).mpr e)
      rw [leafPte_writeLow hinj hi hj hl hmem hi' hj', if_neg hne]
    · exact hother y r' hxy hy i' j' k' hi' hj'
  · rw [leafPte_writeLow hinj hi hj hl hmem hi hj, if_pos rfl]

/-- A write to a leaf that leaves its position owning what it owned keeps the invariant. -/
theorem VmInv.leafWrite_same (h : VmInv «end» k0 vm sp) (hx : (sp x).root = some r)
    {i j k l : Nat} (hi : i < 512) (hj : j < 512) (hk : k < 512)
    (hl : lowPage vm.mem r i j = some l) {w : Nat}
    (hsame : (if UserLeaf i j k ∧ Valid w then some (PTE2PA w) else none) =
      pageAt vm.mem sp (.tbl x (.leaf i j k))) :
    VmInv «end» k0 (vm.write l k w) sp ∧ HeldKept «end» vm (vm.write l k w) sp ∧
      LeavesOut vm (vm.write l k w) sp x (· = vaOf i j k) ∧
      leafPte (vm.write l k w).mem r i j k = if Valid w then some w else none := by
  obtain ⟨hpage, hint, hout, hleaf⟩ := h.leafWrite hx hi hj hk hl w
  rw [hsame, Function.update_eq_self] at hpage
  obtain ⟨hinv, hheld⟩ := h.of_pageAt hpage rfl rfl hint
  exact ⟨hinv, hheld, hout, hleaf⟩

/-- One round of the loop of `uvmunmap` at an aligned `a` below `MAXVA`: the leaf of `a` goes,
and with `do_free` its page goes back to the allocator, which needs the leaf to be a user leaf
(below `TRAPFRAME`) that owns its page. -/
theorem VmInv.unmapOne (h : VmInv «end» k0 vm sp) (hx : (sp x).root = some r) {a : Nat}
    (doFree : Bool) (ha : a % PGSIZE = 0) (hmax : a < MAXVA)
    (hfree : doFree = true → (leafAt vm.mem r a).isSome → a < TRAPFRAME) :
    ∃ vm', (∀ n, uvmunmapLoop «end» r doFree (n + 1) a vm =
        uvmunmapLoop «end» r doFree n (a + PGSIZE) vm') ∧
      VmInv «end» k0 vm' sp ∧ leafAt vm'.mem r a = none ∧ LeavesOut vm vm' sp x (· = a) ∧
      HeldKept «end» vm vm' sp ∧ ((doFree = true ∨ TRAPFRAME ≤ a) → Released vm vm' sp x) ∧
      Shed vm vm' sp x ∧ KeptOthers vm vm' sp x := by
  have hi := PX_lt 2 a
  have hj := PX_lt 1 a
  have hk := PX_lt 0 a
  have ha' := vaOf_PX_of_mod ha hmax
  simp only [uvmunmapLoop, walk_false _ hmax, Loop.ok_bind]
  cases hlow : lowPage vm.mem r (PX 2 a) (PX 1 a) with
  | none =>
    exact ⟨vm, fun _ => rfl, h, by simp [leafAt, leafPte, hlow], (LeavesKept.refl vm sp).out x _,
      HeldKept.refl vm sp, fun _ => Released.of_pageAt x rfl rfl, Shed.of_pageAt x rfl rfl,
      KeptOthers.refl vm sp x⟩
  | some l =>
    simp only [Option.map_some]
    by_cases hv : Valid (vm.mem l (PX 0 a))
    · have hv' : ¬ (vm.mem l (PX 0 a) &&& PTE_V = 0) := hv
      simp only [if_neg hv']
      obtain ⟨hpage, hint, hout, hleaf⟩ := h.leafWrite hx hi hj hk hlow 0
      rw [if_neg fun hw => not_valid_zero hw.2] at hpage
      have hout' : LeavesOut vm (vm.write l (PX 0 a) 0) sp x (· = a) :=
        hout.mono fun v hv => hv.trans ha'
      have hleaf' : leafAt (vm.write l (PX 0 a) 0).mem r a = none := by
        rw [leafAt, hleaf, if_neg not_valid_zero]
      have hpa : leafAt vm.mem r a = some (vm.mem l (PX 0 a)) := by
        simp [leafAt, leafPte, hlow, hv]
      have hko := h.keptOthers (writesIn_write hx hi hj hlow (PX 0 a) 0)
      cases doFree with
      | false =>
        -- the page stays allocated: a user page is then held by no one
        refine ⟨vm.write l (PX 0 a) 0, fun _ => rfl, ?_⟩
        by_cases hu : UserLeaf (PX 2 a) (PX 1 a) (PX 0 a)
        · have hP : pageAt vm.mem sp (.tbl x (.leaf (PX 2 a) (PX 1 a) (PX 0 a))) =
              some (PTE2PA (vm.mem l (PX 0 a))) := by
            simp [pageAt, hx, tablePage, hu, leafPte, hlow, hv]
          obtain ⟨hinv, -, hkeep⟩ := h.dropAt hP hpage rfl rfl hint
          refine ⟨hinv, hleaf', hout', hkeep, fun hc => ?_,
            Shed.of_update hpage fun b hb => .inl hb, hko⟩
          have := (userLeaf_PX ha hmax).mp hu
          simp only [Bool.false_eq_true, false_or] at hc
          omega
        · have hold : pageAt vm.mem sp (.tbl x (.leaf (PX 2 a) (PX 1 a) (PX 0 a))) = none := by
            simp [pageAt, hx, tablePage, hu]
          rw [← hold, Function.update_eq_self] at hpage
          obtain ⟨hinv, hkeep⟩ := h.of_pageAt hpage rfl rfl hint
          exact ⟨hinv, hleaf', hout', hkeep, fun _ => Released.of_pageAt x hpage rfl,
            Shed.of_pageAt x hpage rfl, hko⟩
      | true =>
        -- the user page the leaf owns is dropped, then freed
        have hu : UserLeaf (PX 2 a) (PX 1 a) (PX 0 a) :=
          (userLeaf_PX ha hmax).mpr (hfree rfl (by simp [hpa]))
        have hP : pageAt vm.mem sp (.tbl x (.leaf (PX 2 a) (PX 1 a) (PX 0 a))) =
            some (PTE2PA (vm.mem l (PX 0 a))) := by
          simp [pageAt, hx, tablePage, hu, leafPte, hlow, hv]
        obtain ⟨h2, hheld, hkeep2⟩ := h.dropAt hP hpage rfl rfl hint
        obtain ⟨vm3, hfree3, h3, hmem3, hin3, hkeep3⟩ := h2.kfree_held hheld
        have hrel : Released vm vm3 sp x := by
          refine ⟨fun n b hb => ?_, fun b hb => Vm.kfree_freelist hfree3 hb⟩
          rw [hmem3, hpage, Function.update_apply]
          split_ifs with hn
          · rw [hn, hP] at hb
            cases hb
            exact .inr (by rw [hin3]; exact List.mem_cons_self)
          · exact .inl hb
        rw [Vm.kfree_write] at hfree3
        cases hk1 : vm.kfree «end» (PTE2PA (vm.mem l (PX 0 a))) with
        | error e => simp [hk1, Except.map] at hfree3
        | ok vm1 =>
          simp only [hk1, Except.map, Except.ok.injEq] at hfree3
          subst hfree3
          refine ⟨vm1.write l (PX 0 a) 0, fun _ => rfl, h3, ?_, ?_, fun b hb => ?_,
            fun _ => hrel, Shed.of_update (by rw [hmem3, hpage]) fun b hb => ?_,
            hko.of_mem_eq hmem3⟩
          · simpa [leafAt, hmem3] using hleaf'
          · intro y r' hy i j k hi' hj' hk' hS
            rw [← hout' y r' hy i j k hi' hj' hk' hS]
            simp [hmem3]
          · refine hkeep3 b ?_ (hkeep2 b hb)
            rintro rfl
            exact hb.held.not_owned _ hP
          · -- the one page freed is the leaf's
            rw [hin3, List.mem_cons] at hb
            rcases hb with rfl | hb
            · exact .inr ⟨_, hP⟩
            · exact .inl hb
    · have hv' : vm.mem l (PX 0 a) &&& PTE_V = 0 := by simpa [Valid] using hv
      simp only [if_pos hv']
      exact ⟨vm, fun _ => rfl, h, by simp [leafAt, leafPte, hlow, hv],
        (LeavesKept.refl vm sp).out x _, HeldKept.refl vm sp, fun _ => Released.of_pageAt x rfl rfl,
        Shed.of_pageAt x rfl rfl, KeptOthers.refl vm sp x⟩

/-- The loop of `uvmunmap` over `n` pages from an aligned `a`, below `MAXVA`: the leaves of the
range go, with their pages when `do_free` is set and all of them are user leaves. -/
theorem VmInv.unmapLoop (hx : (sp x).root = some r) (doFree : Bool) (n : Nat) :
    ∀ (a : Nat) (vm : Vm), VmInv «end» k0 vm sp → a % PGSIZE = 0 → a + n * PGSIZE ≤ MAXVA →
      (doFree = true → ∀ v, v % PGSIZE = 0 → a ≤ v → v < a + n * PGSIZE →
        (leafAt vm.mem r v).isSome → v < TRAPFRAME) →
      ∃ vm', uvmunmapLoop «end» r doFree n a vm = .ok vm' ∧ VmInv «end» k0 vm' sp ∧
        (∀ v, v % PGSIZE = 0 → a ≤ v → v < a + n * PGSIZE → leafAt vm'.mem r v = none) ∧
        LeavesOut vm vm' sp x (fun v => a ≤ v ∧ v < a + n * PGSIZE) ∧ HeldKept «end» vm vm' sp ∧
        ((doFree = true ∨ TRAPFRAME ≤ a) → Released vm vm' sp x) ∧ Shed vm vm' sp x ∧
        KeptOthers vm vm' sp x := by
  induction n with
  | zero =>
    intro a vm h _ _ _
    exact ⟨vm, rfl, h, fun v _ h1 h2 => by omega, (LeavesKept.refl vm sp).out x _,
      HeldKept.refl vm sp, fun _ => Released.of_pageAt x rfl rfl, Shed.of_pageAt x rfl rfl,
      KeptOthers.refl vm sp x⟩
  | succ n ih =>
    intro a vm h ha hmax hfree
    have hP := PGSIZE_pos
    have hamax : a < MAXVA := by rw [Nat.add_mul] at hmax; omega
    obtain ⟨vm1, hstep, h1, hleaf1, hout1, hk1, hrel1, hshed1, hko1⟩ :=
      h.unmapOne hx doFree ha hamax fun hd hv => hfree hd a ha le_rfl (by rw [Nat.add_mul]; omega) hv
    -- the rest of the range, whose leaves the first round did not touch
    have hfree' : doFree = true → ∀ v, v % PGSIZE = 0 → a + PGSIZE ≤ v →
        v < a + PGSIZE + n * PGSIZE → (leafAt vm1.mem r v).isSome → v < TRAPFRAME := by
      intro hd v hv h1 h2 hs
      rw [hout1.leafAt hx hv (by rw [Nat.add_mul] at hmax; omega) (by omega)] at hs
      exact hfree hd v hv (by omega) (by rw [Nat.add_mul]; omega) hs
    obtain ⟨vm', hrun, h', hleaf', hout', hk', hrel', hshed', hko'⟩ :=
      ih (a + PGSIZE) vm1 h1 (by rw [Nat.add_mod, ha]; simp [PGSIZE])
        (by rw [Nat.add_mul] at hmax; omega) hfree'
    refine ⟨vm', by rw [hstep, hrun], h', fun v hv h1 h2 => ?_, (hout1.trans hout').mono
      fun v hv => by rcases hv with hv | hv <;> constructor <;> (try rw [Nat.add_mul]) <;> omega,
      hk1.trans hk', fun hc => (hrel1 hc).trans (hrel' (hc.imp_right fun hc => by omega)),
      hshed1.trans hshed', hko1.trans hko'⟩
    by_cases hva : v = a
    · subst hva
      rw [hout'.leafAt hx hv hamax (by omega), hleaf1]
    · exact hleaf' v hv (aligned_add_le ha hv (by omega)) (by rw [Nat.add_mul] at h2; omega)

/-- `uvmunmap(pagetable, va, npages, do_free)` at an aligned `va`. -/
theorem VmInv.uvmunmap (h : VmInv «end» k0 vm sp) (hx : (sp x).root = some r) {va n : Nat}
    (doFree : Bool) (hva : va % PGSIZE = 0) (hmax : va + n * PGSIZE ≤ MAXVA)
    (hfree : doFree = true → ∀ v, v % PGSIZE = 0 → va ≤ v → v < va + n * PGSIZE →
      (leafAt vm.mem r v).isSome → v < TRAPFRAME) :
    ∃ vm', Xv6.uvmunmap «end» r va n doFree vm = .ok vm' ∧ VmInv «end» k0 vm' sp ∧
      (∀ v, v % PGSIZE = 0 → va ≤ v → v < va + n * PGSIZE → leafAt vm'.mem r v = none) ∧
      LeavesOut vm vm' sp x (fun v => va ≤ v ∧ v < va + n * PGSIZE) ∧ HeldKept «end» vm vm' sp ∧
      ((doFree = true ∨ TRAPFRAME ≤ va) → Released vm vm' sp x) ∧ Shed vm vm' sp x ∧
      KeptOthers vm vm' sp x := by
  rw [Xv6.uvmunmap, if_neg (by omega)]
  exact VmInv.unmapLoop hx doFree n va vm h hva hmax hfree

/-- `uvmdealloc(pagetable, oldsz, newsz)` below `TRAPFRAME`: the leaves of
`[PGROUNDUP(newsz), PGROUNDUP(oldsz))` go with their pages. -/
theorem VmInv.uvmdealloc (h : VmInv «end» k0 vm sp) (hx : (sp x).root = some r) (oldsz newsz : Nat)
    (hold : PGROUNDUP oldsz ≤ TRAPFRAME) :
    ∃ vm', Xv6.uvmdealloc «end» r oldsz newsz vm =
        .ok (if oldsz ≤ newsz then oldsz else newsz, vm') ∧ VmInv «end» k0 vm' sp ∧
      (∀ v, v % PGSIZE = 0 → PGROUNDUP newsz ≤ v → v < PGROUNDUP oldsz → leafAt vm'.mem r v = none) ∧
      LeavesOut vm vm' sp x (fun v => PGROUNDUP newsz ≤ v ∧ v < PGROUNDUP oldsz) ∧
      HeldKept «end» vm vm' sp ∧ Released vm vm' sp x := by
  have hT : TRAPFRAME < MAXVA := by decide
  by_cases hle : oldsz ≤ newsz
  · -- nothing to unmap: the rounded range is empty
    have : PGROUNDUP oldsz ≤ PGROUNDUP newsz := by
      unfold PGROUNDUP
      exact Nat.mul_le_mul_right _ (Nat.div_le_div_right (by omega))
    refine ⟨vm, by simp [Xv6.uvmdealloc, hle], h, fun v _ h1 h2 => by omega,
      (LeavesKept.refl vm sp).out x _, HeldKept.refl vm sp, Released.of_pageAt x rfl rfl⟩
  · by_cases hlt : PGROUNDUP newsz < PGROUNDUP oldsz
    · have hcount := PGROUNDUP_sub_div_mul oldsz newsz
      obtain ⟨vm', hun, h', hleaf, hout, hk, hrel, -⟩ := h.uvmunmap hx (n := (PGROUNDUP oldsz -
        PGROUNDUP newsz) / PGSIZE) true (PGROUNDUP_mod newsz) (by omega)
        fun _ v _ _ h2 _ => by omega
      refine ⟨vm', by simp [Xv6.uvmdealloc, hle, hlt, hun], h', fun v hv h1 h2 => hleaf v hv h1
        (by omega), hout.mono fun v hv => ⟨hv.1, by omega⟩, hk, hrel (.inl rfl)⟩
    · refine ⟨vm, by simp [Xv6.uvmdealloc, hle, hlt], h, fun v _ h1 h2 => by omega,
        (LeavesKept.refl vm sp).out x _, HeldKept.refl vm sp, Released.of_pageAt x rfl rfl⟩

/-- The undoing of a failed `uvmalloc`: `uvmdealloc(pagetable, a, oldsz)` takes away what was
mapped from `oldsz` up to `a`. -/
theorem VmInv.allocUndo (h : VmInv «end» k0 vm sp) (hx : (sp x).root = some r) {oldsz a : Nat}
    (hold : oldsz % PGSIZE = 0) (ha : a % PGSIZE = 0) (hatf : a ≤ TRAPFRAME)
    (hbelow : LeavesBelow vm.mem r a) :
    ∃ sz vm', Xv6.uvmdealloc «end» r a oldsz vm = .ok (sz, vm') ∧ VmInv «end» k0 vm' sp ∧
      LeavesBelow vm'.mem r oldsz ∧ LeavesOut vm vm' sp x (fun v => oldsz ≤ v ∧ v < a) ∧
      HeldKept «end» vm vm' sp ∧ Released vm vm' sp x := by
  obtain ⟨vm', hdealloc, h', hnone, hout, hk, hrel⟩ :=
    h.uvmdealloc hx a oldsz (by rwa [PGROUNDUP_of_mod ha])
  rw [PGROUNDUP_of_mod ha, PGROUNDUP_of_mod hold] at hnone hout
  have hbelow' : LeavesBelow vm'.mem r a := hbelow.of_out hout hx le_rfl fun v _ hv =>
    ⟨by have : TRAPFRAME < MAXVA := by decide
        omega, fun hs => by simp [hnone v ‹_› hv.1 hv.2] at hs⟩
  exact ⟨_, vm', hdealloc, h', hbelow'.lower hnone, hout, hk, hrel⟩

omit [DecidableEq ι] in
/-- The page a user leaf maps is the page at the leaf's position. -/
theorem pageAt_leafAt {mem : Nat → Nat → Nat} (hx : (sp x).root = some r) {va w : Nat}
    (hva : va % PGSIZE = 0) (htf : va < TRAPFRAME) (hw : leafAt mem r va = some w) :
    pageAt mem sp (.tbl x (.leaf (PX 2 va) (PX 1 va) (PX 0 va))) = some (PTE2PA w) := by
  have hu := (userLeaf_PX hva (lt_trans htf (by decide))).mpr htf
  have hw' : leafPte mem r (PX 2 va) (PX 1 va) (PX 0 va) = some w := hw
  simp [pageAt, hx, tablePage, hu, hw']

omit [DecidableEq ι] in
/-- No leaf, no page at the leaf's position. -/
theorem pageAt_leafAt_none {mem : Nat → Nat → Nat} (hx : (sp x).root = some r) {va : Nat}
    (hw : leafAt mem r va = none) :
    pageAt mem sp (.tbl x (.leaf (PX 2 va) (PX 1 va) (PX 0 va))) = none := by
  have hw' : leafPte mem r (PX 2 va) (PX 1 va) (PX 0 va) = none := hw
  simp [pageAt, hx, tablePage, hw']

/-- `uvmalloc` giving up at `a`, having only grown the tree of `x` and run out of memory: the
undo from `a` back to `oldsz` gives back every page the call took, but page-table pages. -/
theorem VmInv.allocFail {vm vmF : Vm} (hF : VmInv «end» k0 vmF sp) (hx : (sp x).root = some r)
    {oldsz a : Nat} (hold : oldsz % PGSIZE = 0) (ha : a % PGSIZE = 0) (hatf : a ≤ TRAPFRAME)
    (hb : LeavesBelow vmF.mem r a) (hg : Grew vm vmF sp x (fun _ => False)) (hran : RanOut vm vmF) :
    ∃ sz vm', Xv6.uvmdealloc «end» r a oldsz vmF = .ok (sz, vm') ∧ VmInv «end» k0 vm' sp ∧
      HeldKept «end» vmF vm' sp ∧ LeavesBelow vm'.mem r oldsz ∧
      LeavesOut vmF vm' sp x (fun v => oldsz ≤ v ∧ v < a) ∧ GaveBack vm vm' sp x ∧ RanOut vm vm' := by
  obtain ⟨sz, vm', hd, h', hb', hout, hk, hrel⟩ := hF.allocUndo hx hold ha hatf hb
  obtain ⟨evs, hevs⟩ := uvmdealloc_calls hd
  exact ⟨sz, vm', hd, h', hk, hb', hout, hg.gaveBack hrel.gaveBack fun _ h => h.elim,
    hran.append hevs⟩

variable (hend : KERNBASE ≤ «end»)
include hend

/-- `mappages` of one page at an aligned `va` below `MAXVA` where nothing is mapped: it cannot
panic; it maps `pa` there, or returns `-1` when `walk` runs out of memory. Below `TRAPFRAME`
the page must be one the call holds, which the leaf then owns. -/
theorem VmInv.mappages (h : VmInv «end» k0 vm sp) (hx : (sp x).root = some r) (pa : Nat)
    {va perm : Nat} (hva : va % PGSIZE = 0) (hmax : va < MAXVA) (hperm : perm < 1024)
    (hnone : leafAt vm.mem r va = none)
    (hheld : va < TRAPFRAME → HeldPage «end» vm sp pa) :
    ∃ res vm', mappages r va PGSIZE pa perm vm = .ok (res, vm') ∧ VmInv «end» k0 vm' sp ∧
      LeavesOut vm vm' sp x (· = va) ∧ Grew vm vm' sp x (fun _ => False) ∧
      (∃ evs, vm'.calls = vm.calls ++ evs ∧ (res ≠ 0 → KEvent.kalloc 0 ∈ evs)) ∧
      ((res = 0 ∧ leafAt vm'.mem r va = some (PA2PTE pa ||| perm ||| PTE_V) ∧
          ∀ b, (va < TRAPFRAME → b ≠ pa) → HeldPage «end» vm sp b → HeldPage «end» vm' sp b) ∨
        (res = -1 ∧ leafAt vm'.mem r va = none ∧ HeldKept «end» vm vm' sp)) := by
  obtain ⟨res, vm1, hwalk, h1, hl1, hk1, hg1, hres⟩ := h.walkAlloc hend hx hmax
  obtain ⟨evs, hcalls, hncalls⟩ := walk_calls hwalk
  have hi := PX_lt 2 va
  have hj := PX_lt 1 va
  have hk := PX_lt 0 va
  have hva' := vaOf_PX_of_mod hva hmax
  rw [Xv6.mappages, if_neg (by omega), if_neg (by simp), if_neg (by decide), Nat.div_self (by decide),
    mappagesLoop, hwalk, Loop.ok_bind]
  subst hres
  cases hlow : lowPage vm1.mem r (PX 2 va) (PX 1 va) with
  | none =>
    -- `walk` could not allocate a page-table page
    refine ⟨_, _, rfl, h1, hl1.out x _, hg1, ⟨evs, hcalls, fun _ => hncalls (by simp [hlow])⟩,
      .inr ⟨rfl, by simp [leafAt, leafPte, hlow], hk1⟩⟩
  | some l =>
    have hfree : ¬ Valid (vm1.mem l (PX 0 va)) := by
      have h0 : leafPte vm.mem r (PX 2 va) (PX 1 va) (PX 0 va) = none := hnone
      have := hl1 x r hx _ _ (PX 0 va) hi hj
      rw [h0, leafPte, hlow] at this
      simpa using this
    have hv : ¬ (vm1.mem l (PX 0 va) &&& PTE_V ≠ 0) := hfree
    simp only [Option.map_some, if_neg hv]
    have hvw := valid_leaf pa hperm
    obtain ⟨hpage, hint, hout, hleaf⟩ := h1.leafWrite hx hi hj hk hlow
      (PA2PTE pa ||| perm ||| PTE_V)
    have hout' : LeavesOut vm (vm1.write l (PX 0 va) (PA2PTE pa ||| perm ||| PTE_V)) sp x
        (· = va) :=
      ((hl1.out x fun _ => False).trans hout).mono fun v hv => hv.elim False.elim (·.trans hva')
    have hleaf' : leafAt (vm1.write l (PX 0 va) (PA2PTE pa ||| perm ||| PTE_V)).mem r va =
        some (PA2PTE pa ||| perm ||| PTE_V) := by
      rw [leafAt, hleaf, if_pos hvw]
    -- only the level-0 page was written, and the leaf had no page
    have hg2 : Grew vm1 (vm1.write l (PX 0 va) (PA2PTE pa ||| perm ||| PTE_V)) sp x (fun _ => False) := by
      refine Grew.of_update hpage ?_ rfl fun p hp => ⟨.low (PX 2 va) (PX 1 va), rfl, ?_⟩
      · simp [pageAt, hx, tablePage, leafPte, hlow, hfree]
      · have hpl : p = l := by
          by_contra hne
          exact hp (by simp [Vm.write_mem, hne])
        rw [hpl, hpage, Function.update_of_ne (by simp)]
        simp [pageAt, hx, tablePage, hi, hj, hlow]
    have hg := (hg1.trans hg2).mono fun _ hn => hn.elim id id
    have hc : ∃ evs, (vm1.write l (PX 0 va) (PA2PTE pa ||| perm ||| PTE_V)).calls =
        vm.calls ++ evs ∧ ((0 : Int) ≠ 0 → KEvent.kalloc 0 ∈ evs) :=
      ⟨evs, hcalls, fun h => absurd rfl h⟩
    by_cases htf : va < TRAPFRAME
    · -- a user page: the leaf takes it from the call
      have hu : UserLeaf (PX 2 va) (PX 1 va) (PX 0 va) := (userLeaf_PX hva hmax).mpr htf
      rw [if_pos ⟨hu, hvw⟩, (leaf_pte (hheld htf).managed.1 hperm).2] at hpage
      obtain ⟨hinv, hkeep⟩ := h1.give (hk1 pa (hheld htf)) hpage rfl rfl hint
      exact ⟨_, _, rfl, hinv, hout', hg, hc,
        .inl ⟨rfl, hleaf', fun b hb hbh => hkeep b (hb htf) (hk1 b hbh)⟩⟩
    · -- the trampoline or the trapframe: no position owns what the leaf maps
      have hu : ¬ UserLeaf (PX 2 va) (PX 1 va) (PX 0 va) := fun hu =>
        htf ((userLeaf_PX hva hmax).mp hu)
      have hold : pageAt vm1.mem sp (.tbl x (.leaf (PX 2 va) (PX 1 va) (PX 0 va))) = none := by
        simp [pageAt, hx, tablePage, hu]
      rw [if_neg fun hw => hu hw.1, ← hold, Function.update_eq_self] at hpage
      obtain ⟨hinv, hkeep⟩ := h1.of_pageAt hpage rfl rfl hint
      exact ⟨_, _, rfl, hinv, hout', hg, hc, .inl ⟨rfl, hleaf', fun b _ hbh => hkeep b (hk1 b hbh)⟩⟩

/-- One fresh page at an aligned `a` below `TRAPFRAME` where nothing is mapped, as `uvmalloc` and
`vmfault` get it: `kalloc()` gave the page `mem`, which `memset` zeroes and `mappages` maps with
`perm`; when `mappages` fails, `kfree(mem)` gives it back. Either the leaf of `a` now maps the
page, which was free and is zero; or no leaf moved and every page taken is back but page-table
pages, after a `kalloc` that found none. -/
theorem VmInv.mapFresh (h : VmInv «end» k0 vm sp) (hx : (sp x).root = some r) {a perm : Nat}
    (ha : a % PGSIZE = 0) (hatf : a < TRAPFRAME) (hperm : perm < 1024)
    (hnone : leafAt vm.mem r a = none) (hz : vm.kalloc.2 ≠ 0) :
    vm.kalloc.2 ∈ vm.kmem.freelist ∧
    ∃ res vm2, Xv6.mappages r a PGSIZE vm.kalloc.2 perm (vm.kalloc.1.zero vm.kalloc.2) =
        .ok (res, vm2) ∧
      ((res = 0 ∧ VmInv «end» k0 vm2 sp ∧ HeldKept «end» vm vm2 sp ∧
          leafAt vm2.mem r a = some (PA2PTE vm.kalloc.2 ||| perm ||| PTE_V) ∧
          pageAt vm2.mem sp (.tbl x (.leaf (PX 2 a) (PX 1 a) (PX 0 a))) = some vm.kalloc.2 ∧
          vm2.mem vm.kalloc.2 = (fun _ => 0) ∧ LeavesOut vm vm2 sp x (· = a) ∧
          Grew vm vm2 sp x (· = .leaf (PX 2 a) (PX 1 a) (PX 0 a)) ∧
          ∃ evs, vm2.calls = vm.calls ++ evs) ∨
        (res = -1 ∧ ∃ vm3, vm2.kfree «end» vm.kalloc.2 = .ok vm3 ∧ VmInv «end» k0 vm3 sp ∧
          HeldKept «end» vm vm3 sp ∧ LeavesOut vm vm3 sp x (fun _ => False) ∧
          Grew vm vm3 sp x (fun _ => False) ∧ RanOut vm vm3)) := by
  have hT : TRAPFRAME < MAXVA := by decide
  obtain ⟨h1, hk1, hpg⟩ := h.kalloc hend
  obtain ⟨hheld, hfree⟩ := hpg hz
  -- `memset(mem, 0, PGSIZE)` on the page the call holds
  obtain ⟨hz1, hlz, hkz, hpz⟩ := h1.zero_held hheld
  have hwz : ∀ p, (vm.kalloc.1.zero vm.kalloc.2).mem p ≠ vm.mem p → p = vm.kalloc.2 := by
    intro p hp
    by_contra hne
    exact hp (by simp [Vm.zero_mem, hne])
  have hnone1 : leafAt (vm.kalloc.1.zero vm.kalloc.2).mem r a = none := by
    rw [leafAt, hlz x r hx _ _ _ (PX_lt 2 a) (PX_lt 1 a)]
    exact hnone
  obtain ⟨res, vm2, hmap, h2, hout2, hg2, ⟨evs, hcalls, hncalls⟩, hcase⟩ :=
    hz1.mappages hend hx vm.kalloc.2 ha (lt_trans hatf hT) hperm hnone1 fun _ => hkz _ hheld
  -- what the call held before `kalloc` is not the new page
  have hne : ∀ b, HeldPage «end» vm sp b → b ≠ vm.kalloc.2 := fun b hb e =>
    hb.held.not_free (e ▸ hfree)
  have hout : LeavesOut vm vm2 sp x (· = a) := fun y r' hy i j k hi hj hk hS => by
    rw [hout2 y r' hy i j k hi hj hk hS, hlz y r' hy i j k hi hj, Vm.kalloc_mem]
  have hc2 : vm2.calls = vm.calls ++ (.kalloc vm.kalloc.2 :: evs) := by
    rw [hcalls]
    simp [Vm.kalloc]
  refine ⟨hfree, res, vm2, hmap, ?_⟩
  rcases hcase with ⟨rfl, hleaf2, hk2⟩ | ⟨rfl, hleaf2, hk2⟩
  · have hat2 : pageAt vm2.mem sp (.tbl x (.leaf (PX 2 a) (PX 1 a) (PX 0 a))) =
        some vm.kalloc.2 := by
      rw [pageAt_leafAt hx ha hatf hleaf2, (leaf_pte hheld.managed.1 hperm).2]
    have hgrew1 : Grew vm vm2 sp x (· = .leaf (PX 2 a) (PX 1 a) (PX 0 a)) :=
      Grew.kalloc hz (show (vm.kalloc.1.zero vm.kalloc.2).kmem = vm.kalloc.1.kmem from rfl) hpz
        hwz (hg2.mono fun _ h => h.elim) ⟨_, .inr rfl, hat2⟩
    have hzero2 : vm2.mem vm.kalloc.2 = fun _ => 0 := by
      rw [hg2.mem_eq hheld.held.not_free fun n hn hpos => by
        cases h2.excl.inj _ _ _ hpos hat2
        simp [TPos.isNode] at hn]
      simp [Vm.zero_mem]
    exact .inl ⟨rfl, h2, fun b hb => hk2 b (fun _ => hne b hb) (hkz b (hk1 b hb)), hleaf2, hat2,
      hzero2, hout, hgrew1, _, hc2⟩
  · -- `walk` ran out of memory: the page goes back
    have hheld2 : HeldPage «end» vm2 sp vm.kalloc.2 := hk2 _ (hkz _ hheld)
    obtain ⟨vm3, hfree3, h3, hmem3, hfl3, hk3⟩ := h2.kfree_held hheld2
    have hgrew3 : Grew vm vm3 sp x (fun _ => False) :=
      Grew.kalloc_kfree hz (show (vm.kalloc.1.zero vm.kalloc.2).kmem = vm.kalloc.1.kmem from rfl)
        hpz hwz hg2 hmem3 hfl3
    obtain ⟨_, hc3⟩ := Vm.kfree_eq_ok hfree3
    have hran3 : RanOut vm vm3 := by
      refine ⟨.kalloc vm.kalloc.2 :: evs ++ [.kfree vm.kalloc.2], ?_, ?_⟩
      · rw [hc3.2, hc2, List.append_assoc]
      · exact List.mem_append_left _ (List.mem_cons_of_mem _ (hncalls (by decide)))
    -- the leaf of `a` is missing before and after
    have hout3 : LeavesOut vm vm3 sp x (fun _ => False) := fun y r' hy i j k hi hj hk _ => by
      rw [hmem3]
      by_cases hS : y = x ∧ vaOf i j k = a
      · obtain ⟨rfl, hv⟩ := hS
        rw [hx, Option.some.injEq] at hy
        subst hy
        rw [← leafAt_vaOf _ _ hi hj hk, ← leafAt_vaOf _ _ hi hj hk, hv, hleaf2, hnone]
      · exact hout y r' hy i j k hi hj hk fun e hv => hS ⟨e, hv⟩
    exact .inr ⟨rfl, vm3, hfree3, h3, fun b hb => hk3 b (hne b hb) (hk2 b (hkz b (hk1 b hb))),
      hout3, hgrew3, hran3⟩

/-- The loop of `uvmalloc` from an aligned `a` at least `oldsz`, with `n` pages to go, on a tree
whose leaves are below `a`. There is room for the pages: either they end below `TRAPFRAME`, or
every page below `a` is mapped, and then memory runs out before `TRAPFRAME` (`VmInv.room`). It
maps a fresh zeroed page at each address of the range, the trees only growing; or, when memory
runs out, it takes away all it mapped from `oldsz` on and returns `0`, having given back every
page it took but page-table pages. -/
theorem VmInv.uvmallocLoop (hx : (sp x).root = some r) {oldsz newsz xperm : Nat}
    (hold : oldsz % PGSIZE = 0) (hperm : PTE_R ||| PTE_U ||| xperm < 1024) (n : Nat) :
    ∀ a vm, VmInv «end» k0 vm sp → a % PGSIZE = 0 → oldsz ≤ a → LeavesBelow vm.mem r a →
      (a + n * PGSIZE ≤ TRAPFRAME ∨ Dense vm.mem r a) →
      ∃ sz vm', Xv6.uvmallocLoop «end» r oldsz newsz xperm n a vm = .ok (sz, vm') ∧
        VmInv «end» k0 vm' sp ∧ HeldKept «end» vm vm' sp ∧
        ((sz = newsz ∧ a + n * PGSIZE ≤ TRAPFRAME ∧ LeavesBelow vm'.mem r (a + n * PGSIZE) ∧
            (∀ v, v % PGSIZE = 0 → a ≤ v → v < a + n * PGSIZE → ∃ pa, pa ∈ vm.kmem.freelist ∧
              vm'.mem pa = (fun _ => 0) ∧
              leafAt vm'.mem r v = some (PA2PTE pa ||| (PTE_R ||| PTE_U ||| xperm) ||| PTE_V)) ∧
            LeavesOut vm vm' sp x (fun v => a ≤ v ∧ v < a + n * PGSIZE) ∧
            Grew vm vm' sp x (fun n => n.isNode = false) ∧ ∃ evs, vm'.calls = vm.calls ++ evs) ∨
          (sz = 0 ∧ LeavesBelow vm'.mem r oldsz ∧
            LeavesOut vm vm' sp x (fun v => oldsz ≤ v ∧ v < TRAPFRAME) ∧
            GaveBack vm vm' sp x ∧ RanOut vm vm')) := by
  have hT : TRAPFRAME < MAXVA := by decide
  induction n with
  | zero =>
    intro a vm h _ _ hb hroom
    have hatf : a ≤ TRAPFRAME := by
      rcases hroom with hroom | hroom
      · simpa using hroom
      · exact (h.room hx hroom).le
    exact ⟨newsz, vm, rfl, h, HeldKept.refl vm sp, .inl ⟨rfl, by simpa using hatf,
      by simpa using hb, fun v _ h1 h2 => by omega, (LeavesKept.refl vm sp).out x _,
      Grew.refl _ _ _ _, [], by simp⟩⟩
  | succ n ih =>
    intro a vm h ha hoa hb hroom
    have hP := PGSIZE_pos
    have hatf : a < TRAPFRAME := by
      rcases hroom with hroom | hroom
      · rw [Nat.succ_mul] at hroom
        omega
      · exact h.room hx hroom
    simp only [Xv6.uvmallocLoop]
    by_cases hz : vm.kalloc.2 = 0
    · -- out of memory: undo what was mapped
      obtain ⟨h1, hk1, -⟩ := h.kalloc hend
      rw [if_pos hz]
      obtain ⟨sz, vm', hd, h', hk', hb', hout', hback, hran⟩ :=
        h1.allocFail hx hold ha hatf.le (by rwa [Vm.kalloc_mem]) (h.grew_kalloc_zero hend hz)
          ⟨[.kalloc vm.kalloc.2], rfl, by rw [hz]; exact List.mem_singleton_self _⟩
      rw [hd, Loop.ok_bind]
      refine ⟨0, vm', rfl, h', hk1.trans hk', .inr ⟨rfl, hb', ?_, hback, hran⟩⟩
      intro y r' hy i j k hi hj hk hS
      rw [hout' y r' hy i j k hi hj hk fun e hv => hS e ⟨hv.1, by omega⟩, Vm.kalloc_mem]
    · rw [if_neg hz]
      obtain ⟨hfree, res, vm2, hmap, hcase⟩ :=
        h.mapFresh hend hx ha hatf hperm (hb.leafAt_eq_none ha le_rfl hatf) hz
      rw [hmap, Loop.ok_bind]
      rcases hcase with ⟨rfl, h2, hk2, hleaf2, hat2, hzero2, hout, hgrew1, evs, hc2⟩ |
        ⟨rfl, vm3, hfree3, h3, hk3, hout3, hgrew3, hran3⟩
      · -- mapped: the page is fresh, zero, and owned by the leaf of `a`; on to the next page
        simp only [ne_eq, not_true_eq_false, if_false]
        have hb2 : LeavesBelow vm2.mem r (a + PGSIZE) := hb.of_out hout hx (by omega)
          fun v _ hv => by
            subst hv
            exact ⟨lt_trans hatf hT, fun _ => .inr (.inr (by omega))⟩
        have hroom2 : a + PGSIZE + n * PGSIZE ≤ TRAPFRAME ∨ Dense vm2.mem r (a + PGSIZE) := by
          rcases hroom with hroom | hroom
          · exact .inl (by rw [Nat.succ_mul] at hroom; omega)
          · refine .inr fun v hv hlt => ?_
            by_cases hva : v = a
            · rw [hva, hleaf2]
              rfl
            · have hva' : v < a := by
                by_contra hge
                have := aligned_add_le ha hv (by omega)
                omega
              rw [hout.leafAt hx hv (by omega) hva]
              exact hroom v hv hva'
        obtain ⟨sz, vm', hrun, h', hk', hcase'⟩ := ih (a + PGSIZE) vm2 h2
          (by rw [Nat.add_mod, ha]; simp [PGSIZE]) (by omega) hb2 hroom2
        refine ⟨sz, vm', hrun, h', hk2.trans hk', ?_⟩
        rcases hcase' with ⟨hsz, hle, hb', hmapped, hout', hgrew', evs', hcalls'⟩ |
          ⟨hsz, hb', hout', hback, hran⟩
        · have hend' : a + PGSIZE + n * PGSIZE = a + (n + 1) * PGSIZE := by
            rw [Nat.succ_mul]
            omega
          rw [hend'] at hle hb' hmapped hout'
          refine .inl ⟨hsz, hle, hb', fun v hv h1 h3 => ?_, (hout.trans hout').mono fun v hv => ?_,
            (hgrew1.trans hgrew').mono fun n hn => ?_, _, by rw [hcalls', hc2, List.append_assoc]⟩
          · by_cases hva : v = a
            · -- the page of `a` keeps its zeros through the rest of the loop
              subst hva
              refine ⟨vm.kalloc.2, hfree, ?_, ?_⟩
              · rw [hgrew'.mem_eq (h2.excl.not_free _ _ hat2) fun n hn hpos => by
                  cases h'.excl.inj _ _ _ hpos (hgrew'.keep _ _ hat2)
                  simp [TPos.isNode] at hn]
                exact hzero2
              · rw [hout'.leafAt hx hv (lt_trans hatf hT) (by omega), hleaf2]
            · obtain ⟨pa, hpa, hzero, hleaf⟩ := hmapped v hv (aligned_add_le ha hv (by omega)) h3
              exact ⟨pa, hgrew1.sub pa hpa, hzero, hleaf⟩
          · rcases hv with hv | hv
            · subst hv
              exact ⟨le_rfl, by rw [← hend']; omega⟩
            · exact ⟨by omega, hv.2⟩
          · rcases hn with rfl | hn
            · rfl
            · exact hn
        · -- the rest of the loop gave up: the page of `a` went back with the others
          refine .inr ⟨hsz, hb', (hout.trans hout').mono fun v hv => by omega,
            hgrew1.gaveBack hback fun n hn => ?_, hran.prepend hc2⟩
          subst hn
          exact pageAt_leafAt_none hx (hb'.leafAt_eq_none ha hoa hatf)
      · -- `walk` ran out of memory and the page went back: undo
        simp only [ne_eq, show (-1 : Int) ≠ 0 by decide, not_false_eq_true, if_true]
        rw [hfree3, Loop.ok_bind]
        have hb3 : LeavesBelow vm3.mem r a := hb.of_out hout3 hx le_rfl fun _ _ hv => hv.elim
        obtain ⟨sz, vm', hd, h', hk', hb', hout', hback, hran⟩ :=
          h3.allocFail hx hold ha hatf.le hb3 hgrew3 hran3
        rw [hd, Loop.ok_bind]
        refine ⟨0, vm', rfl, h', hk3.trans hk', .inr ⟨rfl, hb',
          (hout3.trans hout').mono fun v hv => ?_, hback, hran⟩⟩
        rcases hv with hv | hv
        · exact hv.elim
        · exact ⟨hv.1, by omega⟩

/-- `uvmalloc(pagetable, oldsz, newsz, xperm)` on a tree whose leaves are below
`PGROUNDUP(oldsz)`, with room for the new pages (see `VmInv.uvmallocLoop`): it cannot panic; it
maps fresh zeroed pages up to `PGROUNDUP(newsz)` and returns the new size, or returns `0` with
the leaves as they were and every page it took given back but page-table pages. -/
theorem VmInv.uvmalloc (h : VmInv «end» k0 vm sp) (hx : (sp x).root = some r)
    (oldsz newsz xperm : Nat) (hperm : PTE_R ||| PTE_U ||| xperm < 1024)
    (hb : LeavesBelow vm.mem r (PGROUNDUP oldsz))
    (hroom : PGROUNDUP oldsz ≤ TRAPFRAME ∧ PGROUNDUP newsz ≤ TRAPFRAME ∨
      Dense vm.mem r (PGROUNDUP oldsz)) :
    ∃ sz vm', Xv6.uvmalloc «end» r oldsz newsz xperm vm = .ok (sz, vm') ∧
      VmInv «end» k0 vm' sp ∧ HeldKept «end» vm vm' sp ∧
      ((sz = max oldsz newsz ∧ PGROUNDUP sz ≤ TRAPFRAME ∧ LeavesBelow vm'.mem r (PGROUNDUP sz) ∧
          (∀ v, v % PGSIZE = 0 → PGROUNDUP oldsz ≤ v → v < PGROUNDUP sz → ∃ pa,
            pa ∈ vm.kmem.freelist ∧ vm'.mem pa = (fun _ => 0) ∧
            leafAt vm'.mem r v = some (PA2PTE pa ||| (PTE_R ||| PTE_U ||| xperm) ||| PTE_V)) ∧
          LeavesOut vm vm' sp x (fun v => PGROUNDUP oldsz ≤ v ∧ v < PGROUNDUP sz) ∧
          Grew vm vm' sp x (fun n => n.isNode = false)) ∨
        (sz = 0 ∧ LeavesBelow vm'.mem r (PGROUNDUP oldsz) ∧
          LeavesOut vm vm' sp x (fun v => PGROUNDUP oldsz ≤ v ∧ v < TRAPFRAME) ∧
          GaveBack vm vm' sp x ∧ RanOut vm vm')) := by
  by_cases hlt : newsz < oldsz
  · -- nothing to map
    have hatf : PGROUNDUP oldsz ≤ TRAPFRAME := by
      rcases hroom with hroom | hroom
      · exact hroom.1
      · exact (h.room hx hroom).le
    rw [Xv6.uvmalloc, if_pos hlt]
    exact ⟨oldsz, vm, rfl, h, HeldKept.refl vm sp, .inl ⟨by omega, hatf, hb,
      fun v _ h1 h2 => by omega, (LeavesKept.refl vm sp).out x _, Grew.refl _ _ _ _⟩⟩
  · have hle : PGROUNDUP oldsz ≤ PGROUNDUP newsz := by
      unfold PGROUNDUP
      exact Nat.mul_le_mul_right _ (Nat.div_le_div_right (by omega))
    have hcount := uvmalloc_count newsz (PGROUNDUP_mod oldsz) hle
    rw [Xv6.uvmalloc, if_neg hlt]
    obtain ⟨sz, vm', hrun, h', hk, hcase⟩ := VmInv.uvmallocLoop hend hx (PGROUNDUP_mod oldsz) hperm
      _ (PGROUNDUP oldsz) vm h (PGROUNDUP_mod oldsz) le_rfl hb (by rw [hcount]; exact hroom.imp_left And.right)
    rw [hcount] at hcase
    refine ⟨sz, vm', hrun, h', hk, ?_⟩
    rcases hcase with ⟨rfl, hle', hb', hmapped, hout, hgrew, -⟩ | hcase
    · exact .inl ⟨by omega, hle', hb', hmapped, hout, hgrew⟩
    · exact .inr hcase

end Map

end Xv6
