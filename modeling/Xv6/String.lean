import Mathlib

/-!
# `memmove` and `memcpy` (`kernel/string.c`, `user/ulib.c`)

Memory is a function from addresses to bytes, of any type `α`, and a pointer is its address. A
block of `n` bytes from `s` lies below the top of the address space, so `s + n` is the address
just past it and pointer comparisons are comparisons of numbers. Each function returns its
result pointer and the memory after the call.

The kernel and the user library copy with the same two loops and choose between them by
different tests: the kernel copies backwards only when the source starts below the destination
and runs into it, the user library whenever the source does not start above the destination.
The kernel's count is a `uint`, the user library's an `int`, and its `memcpy` passes its `uint`
count on to that `int`.

`strchr` of the user library reads a string as a list of characters: it ends at its first `NUL`,
or at the end of the list, which stands for the `NUL` after it.
-/

namespace Xv6

variable {α : Type*}

/-- `while(n-- > 0) *d++ = *s++;` from `d` and `s`. -/
def moveUp : (Nat → α) → Nat → Nat → Nat → (Nat → α)
  | m, _, _, 0 => m
  | m, d, s, n + 1 => moveUp (Function.update m d (m s)) (d + 1) (s + 1) n

/-- `while(n-- > 0) *--d = *--s;` with `d` and `s` just past the bytes still to copy. -/
def moveDown : (Nat → α) → Nat → Nat → Nat → (Nat → α)
  | m, _, _, 0 => m
  | m, d, s, n + 1 => moveDown (Function.update m (d - 1) (m (s - 1))) (d - 1) (s - 1) n

/-- `memmove(dst, src, n)` of the kernel. -/
def memmove (m : Nat → α) (dst src : Nat) (n : UInt32) : Nat × (Nat → α) :=
  if n = 0 then (dst, m)
  else if src < dst ∧ src + n.toNat > dst then
    (dst, moveDown m (dst + n.toNat) (src + n.toNat) n.toNat)
  else (dst, moveUp m dst src n.toNat)

/-- `memcpy(dst, src, n)` of the kernel: `memmove`. -/
def memcpy (m : Nat → α) (dst src : Nat) (n : UInt32) : Nat × (Nat → α) :=
  memmove m dst src n

namespace Ulib

/-- `memmove(vdst, vsrc, n)` of the user library. For `n ≤ 0` the backward branch moves both
pointers by `n` but neither loop touches memory, so only `max n 0` matters. -/
def memmove (m : Nat → α) (vdst vsrc : Nat) (n : Int32) : Nat × (Nat → α) :=
  if vsrc > vdst then (vdst, moveUp m vdst vsrc n.toInt.toNat)
  else (vdst, moveDown m (vdst + n.toInt.toNat) (vsrc + n.toInt.toNat) n.toInt.toNat)

/-- `memcpy(dst, src, n)` of the user library: its `uint` count becomes `memmove`'s `int`. -/
def memcpy (m : Nat → α) (dst src : Nat) (n : UInt32) : Nat × (Nat → α) :=
  memmove m dst src n.toInt32

/-- `strchr(s, c)`: the offset of the first `c` in the string at `s`, or `none` for the null
pointer. The loop stops at the `NUL` before it compares, so a `NUL` is never found. -/
def strchr : List Char → Char → Option Nat
  | [], _ => none
  | x :: s, c => if x = '\x00' then none else if x = c then some 0 else (strchr s c).map (· + 1)

theorem strchr_lt {s : List Char} {c : Char} {q : Nat} (h : strchr s c = some q) :
    q < s.length := by
  induction s generalizing q with
  | nil => cases h
  | cons x s ih =>
    simp only [strchr] at h
    split_ifs at h with hx hc
    · cases h
      simp
    · obtain ⟨q', hq', rfl⟩ := Option.map_eq_some_iff.mp h
      have := ih hq'
      simp only [List.length_cons]
      omega

end Ulib

end Xv6
