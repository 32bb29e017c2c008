import Mathlib
import Xv6.Lib.Block
import Xv6.String

/-!
# `memmove` moves its block

Each loop meets `Block.copy` when none of its stores lands on a byte it has still to read: the
forward loop when the destination does not start above the source or starts past its end, the
backward loop when the source does not start above the destination or starts past its end.
Both versions of `memmove` choose, for every placement of the two blocks, a loop whose condition
their test implies, so each leaves the block that was at the source at the destination and every
other byte as it was.
-/

namespace Xv6

open Block

variable {α : Type*}

theorem moveUp_eq_copy (m : Nat → α) {d s n : Nat} (hov : d ≤ s ∨ s + n ≤ d) :
    moveUp m d s n = copy m d s n := by
  induction n generalizing m d s with
  | zero => simp [moveUp]
  | succ n ih =>
    rw [moveUp, copy_succ_front m hov]
    exact ih _ (by omega)

theorem moveDown_eq_copy (m : Nat → α) {d s n : Nat} (hov : s ≤ d ∨ d + n ≤ s) :
    moveDown m (d + n) (s + n) n = copy m d s n := by
  induction n generalizing m with
  | zero => simp [moveDown]
  | succ n ih =>
    have hd : d + (n + 1) - 1 = d + n := by omega
    have hs : s + (n + 1) - 1 = s + n := by omega
    rw [moveDown, hd, hs, copy_succ_back m hov]
    exact ih _ (by omega)

theorem memmove_eq_copy (m : Nat → α) (dst src : Nat) (n : UInt32) :
    memmove m dst src n = (dst, copy m dst src n.toNat) := by
  unfold memmove
  split_ifs with hz hback
  · subst hz
    simp
  · rw [moveDown_eq_copy m (by omega)]
  · rw [moveUp_eq_copy m (by omega)]

example : (memmove (fun a : Nat => a) 2 0 3).2 4 = 2 := by decide

theorem memcpy_eq_copy (m : Nat → α) (dst src : Nat) (n : UInt32) :
    memcpy m dst src n = (dst, copy m dst src n.toNat) :=
  memmove_eq_copy m dst src n

theorem Ulib.memmove_eq_copy (m : Nat → α) (vdst vsrc : Nat) (n : Int32) :
    Ulib.memmove m vdst vsrc n = (vdst, copy m vdst vsrc n.toInt.toNat) := by
  unfold Ulib.memmove
  split_ifs with hup
  · rw [moveUp_eq_copy m (by omega)]
  · rw [moveDown_eq_copy m (by omega)]

/-- The `uint` count of the user `memcpy`, read as `memmove`'s `int`: counts from `2^31` on are
negative there. -/
theorem toInt32_toInt_toNat (n : UInt32) :
    n.toInt32.toInt.toNat = if n.toNat < 2 ^ 31 then n.toNat else 0 := by
  have hlt : n.toNat < 2 ^ 32 := n.toNat_lt
  rw [show n.toInt32.toInt = n.toBitVec.toInt from rfl, BitVec.toInt_eq_toNat_cond,
    UInt32.toNat_toBitVec]
  split_ifs with h₁ h₂ h₂ <;> omega

/-- The user `memcpy` copies its count of bytes below `2^31` and nothing from there on. -/
theorem Ulib.memcpy_eq_copy (m : Nat → α) (dst src : Nat) (n : UInt32) :
    Ulib.memcpy m dst src n = (dst, copy m dst src (if n.toNat < 2 ^ 31 then n.toNat else 0)) := by
  rw [Ulib.memcpy, Ulib.memmove_eq_copy, toInt32_toInt_toNat]

theorem memmove_copied :
    (∀ (m : Nat → α) (dst src : Nat) (n : UInt32),
      (memmove m dst src n).1 = dst ∧ Copied m (memmove m dst src n).2 dst src n.toNat) ∧
    (∀ (m : Nat → α) (dst src : Nat) (n : Int32),
      (Ulib.memmove m dst src n).1 = dst ∧
        Copied m (Ulib.memmove m dst src n).2 dst src n.toInt.toNat) := by
  constructor
  · intro m dst src n
    rw [memmove_eq_copy]
    exact ⟨rfl, copied_iff.mpr rfl⟩
  · intro m dst src n
    rw [Ulib.memmove_eq_copy]
    exact ⟨rfl, copied_iff.mpr rfl⟩

end Xv6
