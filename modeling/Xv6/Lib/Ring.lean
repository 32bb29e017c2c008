import Mathlib

/-!
# Ring buffers indexed by free-running 32-bit counters

A ring of `n` slots is indexed by counters that only ever move by one and wrap at `2 ^ 32`; the
counter `i` lives in slot `i % n`. When `n` divides `2 ^ 32`, the slots of counters less than
`n` apart are distinct however the counters wrap. The distance from `b` up to `a` is
`a - b` in 32-bit arithmetic (`dist`), and the contents from `a` on are read by walking the
counters (`read`).
-/

namespace Ring

/-- The distance from `b` up to `a`. -/
def dist (a b : UInt32) : Nat := (a - b).toNat

@[simp] theorem dist_self (a : UInt32) : dist a a = 0 := by simp [dist]

theorem dist_eq_zero_iff {a b : UInt32} : dist a b = 0 ↔ a = b := by
  constructor
  · intro h
    have ha := a.toNat_lt
    have hb := b.toNat_lt
    simp only [dist, UInt32.toNat_sub] at h
    exact UInt32.toNat_inj.mp (by omega)
  · rintro rfl
    exact dist_self a

theorem dist_pos_of_ne {a b : UInt32} (h : a ≠ b) : 0 < dist a b :=
  Nat.pos_of_ne_zero fun e => h (dist_eq_zero_iff.mp e)

/-- The counter `a` one step up. -/
theorem dist_add_one_left {a b : UInt32} (h : dist a b + 1 < 2 ^ 32) :
    dist (a + 1) b = dist a b + 1 := by
  have ha := a.toNat_lt
  have hb := b.toNat_lt
  simp only [dist, UInt32.toNat_sub, UInt32.toNat_add, UInt32.toNat_one] at *
  omega

/-- The counter `b` one step up, towards `a`. -/
theorem dist_add_one_right {a b : UInt32} (h : a ≠ b) : dist a (b + 1) + 1 = dist a b := by
  have hne : a.toNat ≠ b.toNat := fun e => h (UInt32.toNat_inj.mp e)
  have ha := a.toNat_lt
  have hb := b.toNat_lt
  simp only [dist, UInt32.toNat_sub, UInt32.toNat_add, UInt32.toNat_one]
  omega

/-- The counter `a` one step down, towards `b`. -/
theorem dist_sub_one_left {a b : UInt32} (h : a ≠ b) : dist (a - 1) b + 1 = dist a b := by
  have hne : a.toNat ≠ b.toNat := fun e => h (UInt32.toNat_inj.mp e)
  have ha := a.toNat_lt
  have hb := b.toNat_lt
  simp only [dist, UInt32.toNat_sub, UInt32.toNat_one]
  omega

/-- A counter between `b` and `a` splits the distance. -/
theorem dist_split {a m b : UInt32} (h : dist m b ≤ dist a b) : dist a b = dist a m + dist m b := by
  have ha := a.toNat_lt
  have hb := b.toNat_lt
  have hm := m.toNat_lt
  simp only [dist, UInt32.toNat_sub] at *
  omega

/-- Distances add up when they do not wrap. -/
theorem dist_add_of_lt {a m b : UInt32} (h : dist a m + dist m b < 2 ^ 32) :
    dist a b = dist a m + dist m b := by
  have ha := a.toNat_lt
  have hb := b.toNat_lt
  have hm := m.toNat_lt
  simp only [dist, UInt32.toNat_sub] at *
  omega

theorem add_one_sub_one (a : UInt32) : a + 1 - 1 = a := by
  simp

/-- The counter `k` steps after `a`. -/
def after (a : UInt32) (k : Nat) : UInt32 := a + UInt32.ofNat k

@[simp] theorem after_zero (a : UInt32) : after a 0 = a := by simp [after]

theorem after_succ (a : UInt32) (k : Nat) : after a (k + 1) = after (a + 1) k := by
  simp only [after]
  apply UInt32.toNat_inj.mp
  simp only [UInt32.toNat_add, UInt32.toNat_ofNat', UInt32.toNat_one]
  omega

theorem after_dist (a b : UInt32) : after b (dist a b) = a := by
  have ha := a.toNat_lt
  have hb := b.toNat_lt
  apply UInt32.toNat_inj.mp
  simp only [dist, after, UInt32.toNat_sub, UInt32.toNat_add, UInt32.toNat_ofNat']
  omega

section Slots

variable {n : Nat}

/-- The slot of counter `i` in a ring of `n` slots. -/
def slot (n : Nat) [NeZero n] (i : UInt32) : Fin n :=
  ⟨i.toNat % n, Nat.mod_lt _ (Nat.pos_of_ne_zero (NeZero.ne n))⟩

/-- `b` moved up by the distance to `a` is `a`. -/
theorem add_dist_mod (a b : UInt32) : (b.toNat + dist a b) % 2 ^ 32 = a.toNat := by
  have ha := a.toNat_lt
  have hb := b.toNat_lt
  simp only [dist, UInt32.toNat_sub]
  omega

/-- Counters less than `n` apart, and not equal, are in different slots. -/
theorem slot_ne [NeZero n] (hn : n ∣ 2 ^ 32) {a b : UInt32} (h0 : 0 < dist a b)
    (hlt : dist a b < n) : slot n a ≠ slot n b := by
  intro he
  have heq : a.toNat % n = b.toNat % n := congrArg Fin.val he
  -- modulo `n`, `a` is `b` moved up by the distance, since `n` divides `2 ^ 32`
  have hmod : (b.toNat + dist a b) % n = b.toNat % n := by
    rw [← heq, ← add_dist_mod a b, Nat.mod_mod_of_dvd _ hn]
  have hzero : dist a b % n = 0 := by
    have := Nat.sub_mod_eq_zero_of_mod_eq hmod
    rwa [Nat.add_sub_cancel_left] at this
  rw [Nat.mod_eq_of_lt hlt] at hzero
  omega

variable {α : Type}

/-- The `k` slots' contents from counter `a` on. -/
def read [NeZero n] (buf : Fin n → α) (a : UInt32) : Nat → List α
  | 0 => []
  | k + 1 => buf (slot n a) :: read buf (a + 1) k

@[simp] theorem read_zero [NeZero n] (buf : Fin n → α) (a : UInt32) : read buf a 0 = [] := rfl

@[simp] theorem length_read [NeZero n] (buf : Fin n → α) (a : UInt32) (k : Nat) :
    (read buf a k).length = k := by
  induction k generalizing a with
  | zero => rfl
  | succ k ih => simp [read, ih]

theorem read_add [NeZero n] (buf : Fin n → α) (a : UInt32) (k m : Nat) :
    read buf a (k + m) = read buf a k ++ read buf (after a k) m := by
  induction k generalizing a with
  | zero => simp
  | succ k ih =>
    rw [Nat.succ_add, read, ih, read, after_succ]
    rfl

theorem read_succ [NeZero n] (buf : Fin n → α) (a : UInt32) (k : Nat) :
    read buf a (k + 1) = read buf a k ++ [buf (slot n (after a k))] := by
  rw [read_add]
  rfl

/-- A write to the slot of counter `e` leaves the `k` slots from `a` on as they were, when they
lie between `a` and `e` and fewer than `n` counters separate `a` from `e`. -/
theorem read_update [NeZero n] (hn : n ∣ 2 ^ 32) (buf : Fin n → α) {a e : UInt32} {k : Nat}
    (hk : k ≤ dist e a) (he : dist e a < n) (x : α) :
    read (Function.update buf (slot n e) x) a k = read buf a k := by
  induction k generalizing a with
  | zero => rfl
  | succ k ih =>
    have hne : e ≠ a := fun h => by rw [h, dist_self] at hk; omega
    have hd := dist_add_one_right hne
    rw [read, read, ih (by omega) (by omega),
      Function.update_of_ne (slot_ne hn (dist_pos_of_ne hne) he).symm]

/-- Writing counter `e` and moving on: the slot's new contents at the end. -/
theorem read_update_snoc [NeZero n] (hn : n ∣ 2 ^ 32) (buf : Fin n → α) {a e : UInt32}
    (he : dist e a < n) (x : α) :
    read (Function.update buf (slot n e) x) a (dist e a + 1) = read buf a (dist e a) ++ [x] := by
  rw [read_succ, read_update hn buf (Nat.le_refl _) he, after_dist, Function.update_self]

end Slots

end Ring
