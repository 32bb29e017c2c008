import Mathlib

/-!
# Numerals

A loop that prints a number takes `% b` and `/ b` until nothing is left, and so finds its
digits least significant first, at least one of them. `lsd b n` is that list of digits
(`Nat.digits`, with a single `0` for zero), and `numeral tbl b n` the numeral it prints: the
digits most significant first, each turned into a character by the table `tbl`. `value` reads a
numeral back.

`lsd_of_lt` and `lsd_of_le` are the loop's two exits, `length_lsd_le` bounds the digits of a
number below `b ^ k`, and `value_numeral` says that a numeral reads back as its number.
-/

namespace Numeral

variable {α : Type*}

/-- The digits of `n` in base `b`, least significant first; one `0` for zero. -/
def lsd (b n : Nat) : List Nat := if n = 0 then [0] else Nat.digits b n

/-- The numeral of `n` in base `b`, most significant digit first, through the table `tbl`. -/
def numeral (tbl : Nat → α) (b n : Nat) : List α := ((lsd b n).map tbl).reverse

/-- The number a numeral in base `b` stands for, with `dig` the value of each character. -/
def value (dig : α → Nat) (b : Nat) (s : List α) : Nat := Nat.ofDigits b (s.reverse.map dig)

theorem lsd_of_lt {b n : Nat} (hn : n < b) : lsd b n = [n] := by
  unfold lsd
  split_ifs with h
  · rw [h]
  · exact Nat.digits_of_lt b n h hn

theorem lsd_of_le {b n : Nat} (hb : 1 < b) (hn : b ≤ n) : lsd b n = n % b :: lsd b (n / b) := by
  have hpos : 0 < n := by omega
  have hdiv : n / b ≠ 0 := (Nat.div_pos hn (by omega)).ne'
  simp only [lsd, if_neg hpos.ne', if_neg hdiv]
  exact Nat.digits_def' hb hpos

theorem lsd_ne_nil (b n : Nat) : lsd b n ≠ [] := by
  unfold lsd
  split_ifs with h
  · simp
  · exact Nat.digits_ne_nil_iff_ne_zero.mpr h

theorem lt_of_mem_lsd {b n d : Nat} (hb : 1 < b) (hd : d ∈ lsd b n) : d < b := by
  unfold lsd at hd
  split_ifs at hd
  · rw [List.mem_singleton.mp hd]
    omega
  · exact Nat.digits_lt_base hb hd

/-- A number below `b ^ k` has at most `k` digits, for `k ≥ 1`. -/
theorem length_lsd_le {b n k : Nat} (hb : 1 < b) (hk : 0 < k) (hn : n < b ^ k) :
    (lsd b n).length ≤ k := by
  unfold lsd
  split_ifs
  · simp only [List.length_singleton]
    omega
  · exact (Nat.digits_length_le_iff hb n).mpr hn

@[simp] theorem length_numeral (tbl : Nat → α) (b n : Nat) :
    (numeral tbl b n).length = (lsd b n).length := by
  simp [numeral]

/-- A numeral reads back as its number, when `dig` undoes the table on the digits. -/
theorem value_numeral {dig : α → Nat} {tbl : Nat → α} {b : Nat} (hb : 1 < b)
    (hdig : ∀ d, d < b → dig (tbl d) = d) (n : Nat) : value dig b (numeral tbl b n) = n := by
  have hmap : (lsd b n).map (dig ∘ tbl) = lsd b n := by
    conv_rhs => rw [← List.map_id (lsd b n)]
    exact List.map_congr_left fun d hd => hdig d (lt_of_mem_lsd hb hd)
  rw [value, numeral, List.reverse_reverse, List.map_map, hmap]
  unfold lsd
  split_ifs with h
  · simp [h]
  · exact Nat.ofDigits_digits b n

end Numeral
