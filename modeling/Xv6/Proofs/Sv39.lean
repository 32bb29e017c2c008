import Xv6.Vm

/-!
# The arithmetic of Sv39 PTEs and virtual addresses

The macros of `kernel/riscv.h` are shifts and masks; here they become division and remainder.
A PTE word `w` holds the physical page number `w / 1024` and the ten flag bits `w % 1024`,
of which `PTE_V` is bit `0`. A virtual address below `MAXVA` is the three indices `PX 2`, `PX 1`
and `PX 0` and an offset in the page; `vaOf i j k` puts the indices back together.
-/

namespace Xv6

/-- A mask below `2 ^ n` sees only the low `n` bits. -/
theorem and_eq_mod_and {n m : Nat} (w : Nat) (hm : m < 2 ^ n) : w &&& m = w % 2 ^ n &&& m := by
  have hlt : w &&& m < 2 ^ n := Nat.and_lt_two_pow w hm
  rw [← Nat.mod_eq_of_lt hlt, Nat.and_mod_two_pow, Nat.mod_eq_of_lt hm]

/-! ## PTE words -/

/-- Whether a PTE is valid. -/
def Valid (w : Nat) : Prop := w &&& PTE_V ≠ 0

instance (w : Nat) : Decidable (Valid w) := inferInstanceAs (Decidable (w &&& PTE_V ≠ 0))

theorem valid_iff (w : Nat) : Valid w ↔ w % 2 = 1 := by
  unfold Valid PTE_V
  rw [show (1 <<< 0 : Nat) = 1 from rfl, Nat.and_one_is_mod]
  omega

theorem not_valid_zero : ¬ Valid 0 := by decide

theorem PTE2PA_eq (w : Nat) : PTE2PA w = w / 1024 * PGSIZE := by
  simp [PTE2PA, Nat.shiftRight_eq_div_pow, Nat.shiftLeft_eq, PGSIZE]

/-- A PTE with the page of `pa` and the flags `f`, as `PA2PTE(pa) | f`. -/
theorem PA2PTE_or {f : Nat} (pa : Nat) (hf : f < 1024) :
    PA2PTE pa ||| f = pa / PGSIZE * 1024 + f := by
  rw [PA2PTE, ← Nat.shiftLeft_add_eq_or_of_lt (i := 10) hf, Nat.shiftLeft_eq,
    Nat.shiftRight_eq_div_pow]
  rfl

theorem PA2PTE_or_div {f : Nat} (pa : Nat) (hf : f < 1024) :
    (PA2PTE pa ||| f) / 1024 = pa / PGSIZE := by
  rw [PA2PTE_or pa hf]
  omega

theorem PA2PTE_or_mod {f : Nat} (pa : Nat) (hf : f < 1024) : (PA2PTE pa ||| f) % 1024 = f := by
  rw [PA2PTE_or pa hf]
  omega

/-- The page a PTE built from a page-aligned `pa` points to is `pa`. -/
theorem PTE2PA_PA2PTE_or {f pa : Nat} (hpa : pa % PGSIZE = 0) (hf : f < 1024) :
    PTE2PA (PA2PTE pa ||| f) = pa := by
  rw [PTE2PA_eq, PA2PTE_or_div pa hf]
  unfold PGSIZE at *
  omega

theorem PTE_FLAGS_eq (w : Nat) : PTE_FLAGS w = w % 1024 := by
  simpa [PTE_FLAGS] using Nat.and_two_pow_sub_one_eq_mod w 10

theorem PTE_FLAGS_lt (w : Nat) : PTE_FLAGS w < 1024 := by
  rw [PTE_FLAGS_eq]
  omega

/-- The flag bits of a PTE decide every flag test. -/
theorem and_flag {m : Nat} (w : Nat) (hm : m < 1024) : w &&& m = w % 1024 &&& m :=
  and_eq_mod_and (n := 10) w hm

theorem valid_PA2PTE_or {f : Nat} (pa : Nat) (hf : f < 1024) :
    Valid (PA2PTE pa ||| f) ↔ Valid f := by
  rw [valid_iff, valid_iff, PA2PTE_or pa hf]
  omega

theorem valid_or_PTE_V (f : Nat) : Valid (f ||| PTE_V) := by
  rw [valid_iff, PTE_V, show (1 <<< 0 : Nat) = 1 from rfl, Nat.or_mod_two_pow (n := 1)]
  rcases Nat.mod_two_eq_zero_or_one f with h | h <;> simp [h]

theorem or_PTE_V_lt {f : Nat} (hf : f < 1024) : f ||| PTE_V < 1024 :=
  Nat.or_lt_two_pow (n := 10) hf (by decide)

theorem valid_leaf {perm : Nat} (pa : Nat) (hperm : perm < 1024) :
    Valid (PA2PTE pa ||| perm ||| PTE_V) := by
  rw [Nat.or_assoc]
  exact (valid_PA2PTE_or pa (or_PTE_V_lt hperm)).mpr (valid_or_PTE_V perm)

/-- A leaf PTE `PA2PTE(pa) | perm | PTE_V`: valid, pointing to `pa`. -/
theorem leaf_pte {perm pa : Nat} (hpa : pa % PGSIZE = 0) (hperm : perm < 1024) :
    Valid (PA2PTE pa ||| perm ||| PTE_V) ∧ PTE2PA (PA2PTE pa ||| perm ||| PTE_V) = pa := by
  refine ⟨valid_leaf pa hperm, ?_⟩
  rw [Nat.or_assoc]
  exact PTE2PA_PA2PTE_or hpa (or_PTE_V_lt hperm)

/-- An interior PTE `PA2PTE(pa) | PTE_V`: valid, pointing to `pa`, with none of `R`, `W`,
`X`. -/
theorem table_pte {pa : Nat} (hpa : pa % PGSIZE = 0) :
    Valid (PA2PTE pa ||| PTE_V) ∧ PTE2PA (PA2PTE pa ||| PTE_V) = pa ∧
      (PA2PTE pa ||| PTE_V) &&& (PTE_R ||| PTE_W ||| PTE_X) = 0 := by
  have h1 : PTE_V < 1024 := by decide
  refine ⟨(valid_PA2PTE_or pa h1).mpr (by decide), PTE2PA_PA2PTE_or hpa h1, ?_⟩
  rw [and_flag _ (by decide), PA2PTE_or_mod pa h1]
  decide

/-- Clearing `PTE_U` of a PTE below `2 ^ 64` keeps it valid and keeps its page. -/
theorem clear_U {w : Nat} (hw : w < 2 ^ 64) :
    (Valid (w &&& (2 ^ 64 - 1 - PTE_U)) ↔ Valid w) ∧
      PTE2PA (w &&& (2 ^ 64 - 1 - PTE_U)) = PTE2PA w := by
  have hM : (2 ^ 64 - 1 - PTE_U) >>> 10 = 2 ^ 54 - 1 := by decide
  have hdiv : (w &&& (2 ^ 64 - 1 - PTE_U)) / 1024 = w / 1024 := by
    rw [show (1024 : Nat) = 2 ^ 10 from rfl, ← Nat.shiftRight_eq_div_pow,
      Nat.shiftRight_and_distrib, hM, Nat.and_two_pow_sub_one_eq_mod,
      Nat.shiftRight_eq_div_pow, Nat.mod_eq_of_lt]
    omega
  have hmod : (w &&& (2 ^ 64 - 1 - PTE_U)) % 2 = w % 2 := by
    rw [← Nat.and_one_is_mod, ← Nat.and_one_is_mod, Nat.and_assoc,
      show (2 ^ 64 - 1 - PTE_U) &&& 1 = 1 by decide]
  rw [valid_iff, valid_iff, hmod, PTE2PA_eq, PTE2PA_eq, hdiv]
  exact ⟨Iff.rfl, rfl⟩

/-! ## Virtual addresses -/

theorem PX_eq (level va : Nat) : PX level va = va / 2 ^ (12 + 9 * level) % 512 := by
  simp only [PX, PXSHIFT, PGSHIFT, PXMASK, Nat.shiftRight_eq_div_pow]
  exact Nat.and_two_pow_sub_one_eq_mod _ 9

theorem PX_lt (level va : Nat) : PX level va < 512 := by
  rw [PX_eq]
  omega

/-- The virtual address of the page that entry `k` of the level-0 page under entry `j` of the
level-1 page under entry `i` of the root maps. -/
def vaOf (i j k : Nat) : Nat := i * 2 ^ 30 + j * 2 ^ 21 + k * 2 ^ 12

theorem MAXVA_eq : MAXVA = 2 ^ 38 := rfl

theorem TRAPFRAME_eq : TRAPFRAME = 2 ^ 38 - 2 * 4096 := rfl

theorem TRAMPOLINE_eq : TRAMPOLINE = 2 ^ 38 - 4096 := rfl

theorem vaOf_mod (i j k : Nat) : vaOf i j k % PGSIZE = 0 := by
  unfold vaOf PGSIZE
  omega

theorem PX_two_vaOf {i j k : Nat} (hi : i < 512) (hj : j < 512) (hk : k < 512) :
    PX 2 (vaOf i j k) = i := by
  rw [PX_eq]
  unfold vaOf
  omega

theorem PX_one_vaOf (i : Nat) {j k : Nat} (hj : j < 512) (hk : k < 512) :
    PX 1 (vaOf i j k) = j := by
  rw [PX_eq]
  unfold vaOf
  omega

theorem PX_zero_vaOf (i j : Nat) {k : Nat} (hk : k < 512) : PX 0 (vaOf i j k) = k := by
  rw [PX_eq]
  unfold vaOf
  omega

/-- A virtual address below `MAXVA`, rounded down, is the address of its indices. -/
theorem vaOf_PX {va : Nat} (hva : va < MAXVA) :
    vaOf (PX 2 va) (PX 1 va) (PX 0 va) = PGROUNDDOWN va := by
  rw [PX_eq, PX_eq, PX_eq]
  unfold vaOf PGROUNDDOWN PGSIZE
  rw [MAXVA_eq] at hva
  omega

theorem vaOf_inj {i j k i' j' k' : Nat} (hj : j < 512) (hk : k < 512) (hj' : j' < 512)
    (hk' : k' < 512) (h : vaOf i j k = vaOf i' j' k') :
    i = i' ∧ j = j' ∧ k = k' := by
  unfold vaOf at h
  omega

end Xv6
