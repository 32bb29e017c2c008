import Xv6.Kalloc

/-!
# The allocator's invariant

Over every run of `kalloc`, `kref_inc` and `kfree` from the state `kinit` leaves, the counter
matches the free list, the free list holds each managed page at most once and only managed
pages, and the reference counts split the managed pages into the free ones (count `0`) and
the allocated ones (count `1 + incs - frees` since their last `kalloc`). Nothing outside the
managed pages except page `0`, which `kalloc`'s failure path writes, ever has a nonzero count.
-/

namespace Xv6

section

variable {«end» : Nat}

/-! ## Page numbers of managed pages -/

theorem Managed.index_mul {p : Nat} (h : Managed «end» p) : getRefIndex p * PGSIZE = p :=
  Nat.div_mul_cancel (Nat.dvd_of_mod_eq_zero h.1)

theorem Managed.index_inj {p q : Nat} (hp : Managed «end» p) (hq : Managed «end» q)
    (h : getRefIndex p = getRefIndex q) : p = q := by
  rw [← hp.index_mul, ← hq.index_mul, h]

theorem Managed.index_lt {p : Nat} (h : Managed «end» p) : getRefIndex p < NPAGES := by
  have := h.2.2
  unfold getRefIndex NPAGES PHYSTOP KERNBASE PGSIZE at *
  omega

/-- A page-aligned address in `[end, PHYSTOP)` is managed: this is what `kfree` checks. -/
theorem managed_of_kfree_range {pa : Nat} (ha : pa % PGSIZE = 0) (hlo : «end» ≤ pa)
    (hhi : pa < PHYSTOP) : Managed «end» pa := by
  refine ⟨ha, PGROUNDUP_le_of_mod ha hlo, ?_⟩
  unfold PHYSTOP KERNBASE PGSIZE at *
  omega

variable (hend : KERNBASE ≤ «end»)
include hend

/-- The kernel image starts at `KERNBASE`, so page `0`, the index `kalloc` writes when it
fails, is never a managed page. -/
theorem Managed.index_pos {p : Nat} (h : Managed «end» p) : 0 < getRefIndex p := by
  have h1 := le_PGROUNDUP «end»
  have h2 := h.2.1
  unfold getRefIndex KERNBASE PGSIZE at *
  omega

theorem Managed.ne_zero {p : Nat} (h : Managed «end» p) : p ≠ 0 := by
  have := h.index_pos hend
  intro hp
  simp [hp, getRefIndex] at this

omit hend

end

/-! ## One lemma per operation -/

theorem kalloc_cons {s : Kmem} {r : Nat} {next : List Nat} (h : s.freelist = r :: next) :
    kalloc s =
      ({ freelist := next
         freePagesCount := s.freePagesCount - 1
         refCounts := Function.update s.refCounts (getRefIndex r) 1 }, r) := by
  simp [kalloc, h]

theorem kalloc_nil {s : Kmem} (h : s.freelist = []) :
    kalloc s = ({ s with refCounts := Function.update s.refCounts (getRefIndex 0) 1 }, 0) := by
  simp [kalloc, h]

/-- What a successful `kfree` did: the address passed the range check, the count went down by
one, and the page went on the free list exactly when the count had been `1` or less. -/
theorem kfree_eq_some {«end» : Nat} {s s' : Kmem} {pa : Nat} (h : kfree «end» s pa = some s') :
    (pa % PGSIZE = 0 ∧ «end» ≤ pa ∧ pa < PHYSTOP) ∧
    s'.refCounts = Function.update s.refCounts (getRefIndex pa) (s.refCounts (getRefIndex pa) - 1) ∧
    ((1 < s.refCounts (getRefIndex pa) ∧ s'.freelist = s.freelist ∧
        s'.freePagesCount = s.freePagesCount) ∨
      (s.refCounts (getRefIndex pa) ≤ 1 ∧ s'.freelist = pa :: s.freelist ∧
        s'.freePagesCount = s.freePagesCount + 1)) := by
  unfold kfree krefDec at h
  by_cases hr : pa % PGSIZE ≠ 0 ∨ pa < «end» ∨ PHYSTOP ≤ pa
  · simp [hr] at h
  · simp only [hr, if_false] at h
    have hrange : pa % PGSIZE = 0 ∧ «end» ≤ pa ∧ pa < PHYSTOP := by omega
    by_cases hc : 0 < s.refCounts (getRefIndex pa) - 1
    · simp only [hc, if_true, Option.some.injEq] at h
      subst h
      exact ⟨hrange, rfl, .inl ⟨by omega, rfl, rfl⟩⟩
    · simp only [hc, if_false, Option.some.injEq] at h
      subst h
      exact ⟨hrange, rfl, .inr ⟨by omega, rfl, rfl⟩⟩

/-- `kfree` does not panic on a managed page. -/
theorem kfree_isSome {«end» : Nat} (s : Kmem) {pa : Nat} (h : Managed «end» pa) :
    ∃ s', kfree «end» s pa = some s' := by
  have hlo : «end» ≤ pa := le_trans (le_PGROUNDUP «end») h.2.1
  have hhi : pa < PHYSTOP := by have := h.2.2; have := PGSIZE_pos; omega
  unfold kfree
  simp only [h.1, ne_eq, not_true_eq_false, not_lt.mpr hlo, not_le.mpr hhi,
    or_self, if_false]
  split <;> exact ⟨_, rfl⟩

/-- `kalloc` only takes pages off the free list. -/
theorem mem_kalloc_freelist {s s' : Kmem} {r b : Nat} (he : kalloc s = (s', r))
    (hb : b ∈ s'.freelist) : b ∈ s.freelist := by
  cases hfl : s.freelist with
  | nil =>
    rw [kalloc_nil hfl, Prod.mk.injEq] at he
    obtain ⟨rfl, -⟩ := he
    simp [hfl] at hb
  | cons pg next =>
    rw [kalloc_cons hfl, Prod.mk.injEq] at he
    obtain ⟨rfl, -⟩ := he
    exact List.mem_cons_of_mem pg hb

/-! ## What a run did to the free list -/

section Runs

variable {«end» : Nat}

/-- The allocator's state after an event is a function of the state before. -/
theorem KStep.det {s t t' : Kmem} {e : KEvent} (h : KStep «end» s e t) (h' : KStep «end» s e t') :
    t = t' := by
  cases h with
  | kalloc he =>
    cases h' with
    | kalloc he' =>
      rw [he] at he'
      cases he'
      rfl
  | krefInc => cases h'; rfl
  | kfree _ hf =>
    cases h' with
    | kfree _ hf' =>
      rw [hf] at hf'
      cases hf'
      rfl

end Runs

/-! ## The invariant -/

section Invariant

variable («end» : Nat)

/-- The allocator's invariant. -/
structure KmemInv (s : Kmem) : Prop where
  count_eq : s.freePagesCount = s.freelist.length
  nodup : s.freelist.Nodup
  free_managed : ∀ p ∈ s.freelist, Managed «end» p
  free_ref : ∀ p ∈ s.freelist, s.refCounts (getRefIndex p) = 0
  used_ref : ∀ p, Managed «end» p → p ∉ s.freelist → 1 ≤ s.refCounts (getRefIndex p)
  other_ref : ∀ i, 0 < i → ¬ Managed «end» (i * PGSIZE) → s.refCounts i = 0

variable {«end»} {s : Kmem}

/-- The managed pages split into the free ones, with count `0`, and the allocated ones. -/
theorem KmemInv.partition (hs : KmemInv «end» s) {p : Nat} (hp : Managed «end» p) :
    (p ∈ s.freelist ∧ s.refCounts (getRefIndex p) = 0) ∨
      (p ∉ s.freelist ∧ 1 ≤ s.refCounts (getRefIndex p)) := by
  by_cases hf : p ∈ s.freelist
  · exact .inl ⟨hf, hs.free_ref p hf⟩
  · exact .inr ⟨hf, hs.used_ref p hp hf⟩

/-- An index other than that of page `p` does not see an update at `p`'s index. -/
theorem update_index_of_ne {f : Nat → Int} {p q : Nat} {v : Int} (hp : Managed «end» p)
    (hq : Managed «end» q) (hne : q ≠ p) :
    Function.update f (getRefIndex p) v (getRefIndex q) = f (getRefIndex q) :=
  Function.update_of_ne (fun h => hne (hq.index_inj hp h)) _ _

theorem KmemInv.krefInc (hs : KmemInv «end» s) {pa : Nat} (hpos : 1 ≤ s.refCounts (getRefIndex pa)) :
    KmemInv «end» (krefInc s pa) := by
  simp only [Xv6.krefInc]
  refine ⟨hs.count_eq, hs.nodup, hs.free_managed, ?_, ?_, ?_⟩
  · intro p hp
    have hne : getRefIndex p ≠ getRefIndex pa := by
      intro h
      have := hs.free_ref p hp
      rw [h] at this
      omega
    simp only [Function.update_of_ne hne]
    exact hs.free_ref p hp
  · intro p hp hnot
    have := hs.used_ref p hp hnot
    simp only [Function.update_apply]
    split <;> omega
  · intro i hi hm
    have hne : i ≠ getRefIndex pa := by
      intro h
      have := hs.other_ref i hi hm
      rw [h] at this
      omega
    simp only [Function.update_of_ne hne]
    exact hs.other_ref i hi hm

theorem KmemInv.kfree (hs : KmemInv «end» s) {pa : Nat} {s' : Kmem}
    (hpos : 1 ≤ s.refCounts (getRefIndex pa)) (h : Xv6.kfree «end» s pa = some s') :
    KmemInv «end» s' := by
  obtain ⟨⟨ha, hlo, hhi⟩, href, hcase⟩ := kfree_eq_some h
  have hpa : Managed «end» pa := managed_of_kfree_range ha hlo hhi
  have hnotfree : pa ∉ s.freelist := fun hf => by have := hs.free_ref pa hf; omega
  have hother : ∀ i, 0 < i → ¬ Managed «end» (i * PGSIZE) → s'.refCounts i = 0 := by
    intro i hi hm
    have hne : i ≠ getRefIndex pa := by
      intro hi'
      apply hm
      rw [hi', hpa.index_mul]
      exact hpa
    rw [href, Function.update_of_ne hne]
    exact hs.other_ref i hi hm
  have hfree : ∀ p ∈ s.freelist, s'.refCounts (getRefIndex p) = 0 := by
    intro p hp
    have hpm := hs.free_managed p hp
    have hne : p ≠ pa := fun e => hnotfree (e ▸ hp)
    rw [href, update_index_of_ne hpa hpm hne]
    exact hs.free_ref p hp
  rcases hcase with ⟨hgt, hfl, hcnt⟩ | ⟨hle, hfl, hcnt⟩
  · refine ⟨by rw [hcnt, hfl]; exact hs.count_eq, hfl ▸ hs.nodup, hfl ▸ hs.free_managed,
      hfl ▸ hfree, ?_, hother⟩
    intro p hp hnot
    rw [hfl] at hnot
    by_cases hpp : p = pa
    · subst hpp
      rw [href, Function.update_self]
      omega
    · rw [href, update_index_of_ne hpa hp hpp]
      exact hs.used_ref p hp hnot
  · refine ⟨?_, ?_, ?_, ?_, ?_, hother⟩
    · rw [hcnt, hfl, hs.count_eq]
      simp
    · rw [hfl]
      exact List.nodup_cons.mpr ⟨hnotfree, hs.nodup⟩
    · intro p hp
      rw [hfl, List.mem_cons] at hp
      rcases hp with rfl | hp
      · exact hpa
      · exact hs.free_managed p hp
    · intro p hp
      rw [hfl, List.mem_cons] at hp
      rcases hp with rfl | hp
      · rw [href, Function.update_self]
        omega
      · exact hfree p hp
    · intro p hp hnot
      rw [hfl, List.mem_cons, not_or] at hnot
      rw [href, update_index_of_ne hpa hp hnot.1]
      exact hs.used_ref p hp hnot.2

variable (hend : KERNBASE ≤ «end»)
include hend

theorem KmemInv.kalloc (hs : KmemInv «end» s) : KmemInv «end» (kalloc s).1 := by
  cases hfl : s.freelist with
  | nil =>
    rw [kalloc_nil hfl]
    refine ⟨?_, ?_, ?_, ?_, ?_, ?_⟩
    · simpa [hfl] using hs.count_eq
    · simp [hfl]
    · simp [hfl]
    · simp [hfl]
    · intro p hp hnot
      have hne : getRefIndex p ≠ getRefIndex 0 := by
        have := hp.index_pos hend
        simp only [getRefIndex, Nat.zero_div] at this ⊢
        omega
      simp only [Function.update_of_ne hne]
      exact hs.used_ref p hp (by simp [hfl])
    · intro i hi hm
      have hne : i ≠ getRefIndex 0 := by simp [getRefIndex]; omega
      simp only [Function.update_of_ne hne]
      exact hs.other_ref i hi hm
  | cons r next =>
    rw [kalloc_cons hfl]
    have hr : Managed «end» r := hs.free_managed r (by simp [hfl])
    have hnd : (r :: next).Nodup := hfl ▸ hs.nodup
    have hrn : r ∉ next := (List.nodup_cons.mp hnd).1
    refine ⟨?_, (List.nodup_cons.mp hnd).2, fun p hp => hs.free_managed p (by simp [hfl, hp]),
      ?_, ?_, ?_⟩
    · have := hs.count_eq
      simp only [hfl, List.length_cons] at this ⊢
      omega
    · intro p hp
      have hpr : p ≠ r := fun h => hrn (h ▸ hp)
      have hpm := hs.free_managed p (by simp [hfl, hp])
      simp only [update_index_of_ne hr hpm hpr]
      exact hs.free_ref p (by simp [hfl, hp])
    · intro p hp hnot
      by_cases hpr : p = r
      · subst hpr
        simp
      · simp only [update_index_of_ne hr hp hpr]
        exact hs.used_ref p hp (by simp [hfl, hpr, hnot])
    · intro i hi hm
      have hne : i ≠ getRefIndex r := by
        intro h
        apply hm
        rw [h, hr.index_mul]
        exact hr
      simp only [Function.update_of_ne hne]
      exact hs.other_ref i hi hm

/-- Every allowed call preserves the invariant. -/
theorem KmemInv.step {ev : KEvent} {s' : Kmem} (hs : KmemInv «end» s) (h : KStep «end» s ev s') :
    KmemInv «end» s' := by
  cases h with
  | kalloc he =>
    have := hs.kalloc hend
    rwa [he] at this
  | krefInc hpos => exact hs.krefInc hpos
  | kfree hpos hf => exact hs.kfree hpos hf

end Invariant

/-! ## The owners of a page since its last allocation -/

theorem ownerBalance_kalloc_self (p : Nat) (evs : List KEvent) :
    ownerBalance p (evs ++ [.kalloc p]) = 1 := by
  have h : KEvent.allocates p (.kalloc p) = true := by simp [KEvent.allocates]
  simp [ownerBalance, Trace.sinceLast_append_of_pos _ _ h]

/-- An event that does not allocate `p` moves `p`'s balance by its `kref_inc` or `kfree`. -/
theorem ownerBalance_append {p : Nat} {ev : KEvent} (evs : List KEvent)
    (h : ev.allocates p = false) :
    ownerBalance p (evs ++ [ev]) =
      ownerBalance p evs + (if ev.incs p then 1 else 0) - (if ev.frees p then 1 else 0) := by
  simp only [ownerBalance, Trace.sinceLast_append_of_neg _ _ h, List.countP_append,
    List.countP_singleton]
  split <;> split <;> push_cast <;> omega

section History

variable («end» : Nat)

/-- Every allocated managed page was returned by some `kalloc`, and its count is one plus the
`kref_inc`s minus the `kfree`s on it since the last such `kalloc`. -/
def HistInv (evs : List KEvent) (s : Kmem) : Prop :=
  ∀ p, Managed «end» p → p ∉ s.freelist →
    KEvent.kalloc p ∈ evs ∧ s.refCounts (getRefIndex p) = ownerBalance p evs

variable {«end»} (hend : KERNBASE ≤ «end»)
include hend

theorem HistInv.step {evs : List KEvent} {s s' : Kmem} {ev : KEvent} (hs : KmemInv «end» s)
    (hh : HistInv «end» evs s) (h : KStep «end» s ev s') : HistInv «end» (evs ++ [ev]) s' := by
  intro p hp hnot
  cases h with
  | @kalloc _ ra he =>
    cases hfl : s.freelist with
    | nil =>
      rw [kalloc_nil hfl, Prod.mk.injEq] at he
      obtain ⟨rfl, hra⟩ := he
      subst hra
      have hne : getRefIndex p ≠ getRefIndex 0 := by
        have := hp.index_pos hend
        simp only [getRefIndex, Nat.zero_div] at this ⊢
        omega
      have hal : KEvent.allocates p (.kalloc 0) = false := by
        simp [KEvent.allocates, Ne.symm (hp.ne_zero hend)]
      obtain ⟨hmem, hcnt⟩ := hh p hp hnot
      refine ⟨List.mem_append_left _ hmem, ?_⟩
      rw [ownerBalance_append _ hal]
      simpa [Function.update_of_ne hne, KEvent.incs, KEvent.frees] using hcnt
    | cons r next =>
      rw [kalloc_cons hfl, Prod.mk.injEq] at he
      obtain ⟨rfl, hra⟩ := he
      subst hra
      by_cases hpr : p = r
      · subst hpr
        refine ⟨by simp, ?_⟩
        rw [ownerBalance_kalloc_self]
        simp
      · have hr : Managed «end» r := hs.free_managed r (by simp [hfl])
        have hal : KEvent.allocates p (.kalloc r) = false := by
          simp [KEvent.allocates, Ne.symm hpr]
        obtain ⟨hmem, hcnt⟩ := hh p hp (by simp_all)
        refine ⟨List.mem_append_left _ hmem, ?_⟩
        rw [ownerBalance_append _ hal]
        simpa [update_index_of_ne hr hp hpr, KEvent.incs, KEvent.frees] using hcnt
  | @krefInc pa hpos =>
    have hal : KEvent.allocates p (.krefInc pa) = false := rfl
    obtain ⟨hmem, hcnt⟩ := hh p hp hnot
    refine ⟨List.mem_append_left _ hmem, ?_⟩
    rw [ownerBalance_append _ hal]
    simp only [Xv6.krefInc, Function.update_apply, KEvent.incs, KEvent.frees, beq_iff_eq]
    by_cases hi : getRefIndex p = getRefIndex pa
    · simp [hi] at hcnt ⊢
      omega
    · simp [hi, Ne.symm hi, hcnt]
  | @kfree _ pa hpos hf =>
    obtain ⟨⟨ha, hlo, hhi⟩, href, hcase⟩ := kfree_eq_some hf
    have hpa : Managed «end» pa := managed_of_kfree_range ha hlo hhi
    have hal : KEvent.allocates p (.kfree pa) = false := rfl
    rcases hcase with ⟨hgt, hfl, -⟩ | ⟨hle, hfl, -⟩
    · rw [hfl] at hnot
      obtain ⟨hmem, hcnt⟩ := hh p hp hnot
      refine ⟨List.mem_append_left _ hmem, ?_⟩
      rw [ownerBalance_append _ hal, href]
      simp only [Function.update_apply, KEvent.incs, KEvent.frees, beq_iff_eq]
      by_cases hi : getRefIndex p = getRefIndex pa
      · simp [hi] at hcnt ⊢
        omega
      · simp [hi, Ne.symm hi, hcnt]
    · rw [hfl, List.mem_cons, not_or] at hnot
      obtain ⟨hmem, hcnt⟩ := hh p hp hnot.2
      have hi : getRefIndex pa ≠ getRefIndex p := fun e => hnot.1 (hp.index_inj hpa e.symm)
      refine ⟨List.mem_append_left _ hmem, ?_⟩
      rw [ownerBalance_append _ hal, href, Function.update_of_ne (Ne.symm hi)]
      simpa [KEvent.incs, KEvent.frees, hi] using hcnt

end History

/-! ## `kinit` -/

section Kinit

variable («end» : Nat)

/-- What the loop of `freerange` keeps: every count is `0` again after its page is freed, and
the free list holds exactly the managed pages below the loop's page. -/
def FreerangeInv (p : Nat) (s : Kmem) : Prop :=
  s.refCounts = (fun _ => 0) ∧ s.freePagesCount = s.freelist.length ∧ s.freelist.Nodup ∧
    ∀ q, q ∈ s.freelist ↔ Managed «end» q ∧ q < p

/-- The loop frees every managed page from `p` on without panicking. -/
theorem freerangeLoop_spec (p : Nat) (s : Kmem) (hp : p % PGSIZE = 0)
    (hlo : PGROUNDUP «end» ≤ p) (hs : FreerangeInv «end» p s) :
    ∃ s', freerangeLoop «end» PHYSTOP p s = some s' ∧ FreerangeInv «end» PHYSTOP s' := by
  fun_induction freerangeLoop «end» PHYSTOP p s with
  | case1 p s hin s1 ih =>
    obtain ⟨hz, hcnt, hnd, hmem⟩ := hs
    have hpm : Managed «end» p := ⟨hp, hlo, hin⟩
    obtain ⟨s2, hs2⟩ := kfree_isSome s1 hpm
    obtain ⟨-, href, hcase⟩ := kfree_eq_some hs2
    have h1 : s1.refCounts (getRefIndex p) = 1 := by simp [s1]
    rcases hcase with ⟨hgt, -, -⟩ | ⟨-, hfl, hc⟩
    · omega
    have hinv : FreerangeInv «end» (p + PGSIZE) s2 := by
      refine ⟨?_, by rw [hc, hfl, hcnt]; simp [s1], ?_, ?_⟩
      · rw [href]
        funext j
        simp [s1, hz, Function.update_apply]
      · rw [hfl]
        refine List.nodup_cons.mpr ⟨fun hm => ?_, hnd⟩
        have := ((hmem p).mp hm).2
        omega
      · intro q
        rw [hfl, List.mem_cons, hmem q]
        constructor
        · rintro (rfl | ⟨hq, hqp⟩)
          · exact ⟨hpm, by have := PGSIZE_pos; omega⟩
          · exact ⟨hq, by omega⟩
        · rintro ⟨hq, hqp⟩
          by_cases hlt : q < p
          · exact .inr ⟨hq, hlt⟩
          · left
            have := hq.1
            unfold PGSIZE at *
            omega
    obtain ⟨s', hrun, hs'⟩ := ih s2 (by unfold PGSIZE at *; omega) (by omega) hinv
    refine ⟨s', ?_, hs'⟩
    rw [hs2, Option.bind_some, hrun]
  | case2 p s hout =>
    refine ⟨s, rfl, hs.1, hs.2.1, hs.2.2.1, fun q => ?_⟩
    rw [hs.2.2.2 q]
    constructor
    · rintro ⟨hq, hqp⟩
      exact ⟨hq, by have := hq.2.2; have := PGSIZE_pos; omega⟩
    · rintro ⟨hq, -⟩
      exact ⟨hq, by have := hq.2.2; omega⟩

/-- `kinit` frees every managed page and leaves every count at `0`. -/
theorem kinit_spec : ∃ s0, kinit «end» = some s0 ∧ KmemInv «end» s0 ∧
    ∀ q, Managed «end» q → q ∈ s0.freelist := by
  have h0 : FreerangeInv «end» (PGROUNDUP «end») { Kmem.boot with freePagesCount := 0 } := by
    refine ⟨rfl, rfl, List.nodup_nil, fun q => ?_⟩
    simp only [Kmem.boot, List.not_mem_nil, false_iff, not_and, not_lt]
    exact fun hq => hq.2.1
  obtain ⟨s0, hrun, hz, hcnt, hnd, hmem⟩ :=
    freerangeLoop_spec «end» _ _ (PGROUNDUP_mod «end») le_rfl h0
  have hall : ∀ q, Managed «end» q → q ∈ s0.freelist := fun q hq =>
    (hmem q).mpr ⟨hq, by have := hq.2.2; have := PGSIZE_pos; omega⟩
  refine ⟨s0, hrun, ⟨hcnt, hnd, fun q hq => ((hmem q).mp hq).1, ?_, ?_, ?_⟩, hall⟩
  · intro q _
    rw [hz]
  · intro q hq hnot
    exact absurd (hall q hq) hnot
  · intro i _ _
    rw [hz]

end Kinit

/-! ## The allocator's contract over whole runs -/

section Contract

variable («end» : Nat)

/-- What holds of a state reached from `kinit` by the calls `evs`: the invariant, the split of
the managed pages, the owner count of every allocated page, and what the next `kalloc` or
`kfree` can do from there. -/
structure KallocSpec (evs : List KEvent) (s : Kmem) : Prop where
  inv : KmemInv «end» s
  partition : ∀ p, Managed «end» p →
    (p ∈ s.freelist ∧ s.refCounts (getRefIndex p) = 0) ∨
      (p ∉ s.freelist ∧ 1 ≤ s.refCounts (getRefIndex p))
  owners : HistInv «end» evs s
  kalloc_fresh : ∀ s' r, kalloc s = (s', r) → r ≠ 0 →
    Managed «end» r ∧ r ∈ s.freelist ∧ s.refCounts (getRefIndex r) = 0 ∧
      r ∉ s'.freelist ∧ s'.refCounts (getRefIndex r) = 1
  kalloc_zero : ∀ s', kalloc s = (s', 0) →
    s.freelist = [] ∧ s'.freelist = [] ∧ s'.freePagesCount = s.freePagesCount ∧
      ∀ p, Managed «end» p → s'.refCounts (getRefIndex p) = s.refCounts (getRefIndex p)
  kfree_ok : ∀ pa, Managed «end» pa → ∃ s', kfree «end» s pa = some s'
  kfree_push : ∀ pa s', 1 ≤ s.refCounts (getRefIndex pa) → kfree «end» s pa = some s' →
    (s.refCounts (getRefIndex pa) = 1 →
        s'.freelist = pa :: s.freelist ∧ s'.freePagesCount = s.freePagesCount + 1) ∧
      (s.refCounts (getRefIndex pa) ≠ 1 →
        s'.freelist = s.freelist ∧ s'.freePagesCount = s.freePagesCount)

variable {«end»} (hend : KERNBASE ≤ «end»)
include hend

theorem KallocSpec.of_inv {evs : List KEvent} {s : Kmem} (hs : KmemInv «end» s)
    (hh : HistInv «end» evs s) : KallocSpec «end» evs s := by
  refine ⟨hs, fun p hp => hs.partition hp, hh, ?_, ?_, fun pa hpa => kfree_isSome s hpa, ?_⟩
  · intro s' r he hr0
    cases hfl : s.freelist with
    | nil =>
      rw [kalloc_nil hfl, Prod.mk.injEq] at he
      exact absurd he.2.symm hr0
    | cons r' next =>
      rw [kalloc_cons hfl, Prod.mk.injEq] at he
      obtain ⟨rfl, rfl⟩ := he
      have hnd : (r' :: next).Nodup := hfl ▸ hs.nodup
      have hmem : r' ∈ s.freelist := by simp [hfl]
      exact ⟨hs.free_managed r' hmem, by simp, hs.free_ref r' hmem, (List.nodup_cons.mp hnd).1,
        by simp⟩
  · intro s' he
    cases hfl : s.freelist with
    | nil =>
      rw [kalloc_nil hfl, Prod.mk.injEq] at he
      obtain ⟨rfl, -⟩ := he
      refine ⟨rfl, hfl, rfl, fun p hp => ?_⟩
      have hne : getRefIndex p ≠ getRefIndex 0 := by
        have := hp.index_pos hend
        simp only [getRefIndex, Nat.zero_div] at this ⊢
        omega
      exact Function.update_of_ne hne _ _
    | cons r next =>
      rw [kalloc_cons hfl, Prod.mk.injEq] at he
      have hr : Managed «end» r := hs.free_managed r (by simp [hfl])
      exact absurd he.2 (hr.ne_zero hend)
  · intro pa s' hpos hf
    obtain ⟨-, -, hcase⟩ := kfree_eq_some hf
    rcases hcase with ⟨hgt, hfl, hc⟩ | ⟨hle, hfl, hc⟩
    · exact ⟨fun h => by omega, fun _ => ⟨hfl, hc⟩⟩
    · exact ⟨fun _ => ⟨hfl, hc⟩, fun h => by omega⟩

omit hend

/-- The physical page allocator's invariant over every run from `kinit`: `kinit` succeeds, and
after any sequence of `kalloc`, `kref_inc` and `kfree` calls (the last two on pages whose count
is at least `1`) the counter equals the length of the free list, the free list is a set of
managed pages with count `0`, every other managed page has count `1 + incs - frees` since the
`kalloc` that last returned it, no index outside the managed pages but `0` is ever nonzero,
`kalloc` only returns free pages, `kfree` frees a page exactly when its count drops from `1`,
and a failing `kalloc` changes nothing but the count of page `0`. -/
theorem kalloc_invariant (hend : KERNBASE ≤ «end») :
    ∃ s0, kinit «end» = some s0 ∧
      ∀ evs s, Trace.Run (KStep «end») s0 evs s → KallocSpec «end» evs s := by
  obtain ⟨s0, hk, hinv, hall⟩ := kinit_spec «end»
  have hh0 : HistInv «end» [] s0 := fun p hp hnot => absurd (hall p hp) hnot
  refine ⟨s0, hk, fun evs s hrun => ?_⟩
  have h := Trace.Run.trace_induction (Q := fun t l => KmemInv «end» t ∧ HistInv «end» l t)
    ⟨hinv, hh0⟩ (fun t l a u hi hst => ⟨hi.1.step hend hst, hi.2.step hend hi.1 hst⟩) hrun
  exact KallocSpec.of_inv hend h.1 h.2

/-- `kalloc_invariant` for a kernel image that ends at `0x80021000`. -/
theorem kalloc_invariant_at_kernel_end :
    KERNBASE ≤ 0x80021000 ∧ ∃ s0, kinit 0x80021000 = some s0 ∧
      ∀ evs s, Trace.Run (KStep 0x80021000) s0 evs s → KallocSpec 0x80021000 evs s :=
  ⟨by decide, kalloc_invariant (by decide)⟩

end Contract

end Xv6
