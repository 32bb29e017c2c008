import Mathlib
import Xv6.Umalloc

/-!
# The sizes `malloc` computes, and its first call

`nunits` never wraps; from `2 ^ 31` bytes on, the conversion to `int` of the argument `morecore`
passes to `sbrk` truncates the byte count. The first `malloc` of a program is run through: it makes
`base` a list of its own, finds it too small, calls `morecore`, whose `free` links the new
block after `base`, and takes the block on the next round. For a request whose block is
`2 ^ 27` headers or more, the block it returns lies beyond the break `sbrk` left.
-/

namespace Xv6

/-! ## Sizes -/

theorem nunitsOf_toNat (nbytes : UInt32) :
    (nunitsOf nbytes).toNat = (nbytes.toNat + HEADER_SIZE - 1) / HEADER_SIZE + 1 := by
  have hn := nbytes.toNat_lt
  rw [nunitsOf, UInt32.toNat_ofNat']
  exact Nat.mod_eq_of_lt (by simp only [HEADER_SIZE]; omega)

theorem nunitsOf_pos (nbytes : UInt32) : 0 < (nunitsOf nbytes).toNat := by
  rw [nunitsOf_toNat]
  exact Nat.succ_pos _

theorem morecoreArg_toInt (nu : UInt32) :
    (morecoreArg nu).toInt = (↑(nu.toNat * HEADER_SIZE) : Int).bmod (2 ^ 32) := by
  have hsize : Int32.size = 2 ^ 32 := rfl
  rw [morecoreArg, Int32.toInt_ofNat', hsize]

/-- From `2 ^ 31` bytes on, `sbrk` gets something else: an `int` is below `2 ^ 31`. -/
theorem morecoreArg_truncated {nu : UInt32} (h : 2 ^ 31 ≤ nu.toNat * HEADER_SIZE) :
    (morecoreArg nu).toInt ≠ nu.toNat * HEADER_SIZE := by
  have hlt := (morecoreArg nu).toInt_lt
  omega

/-! ## `sbrk` -/

section Sbrk

variable (n : Int32) (h : UHeap)

@[simp] theorem sbrk_mem : (sbrk n h).2.mem = h.mem := by
  unfold sbrk
  dsimp only
  split_ifs <;> rfl

@[simp] theorem sbrk_freep : (sbrk n h).2.freep = h.freep := by
  unfold sbrk
  dsimp only
  split_ifs <;> rfl

@[simp] theorem sbrk_base : (sbrk n h).2.base = h.base := by
  unfold sbrk
  dsimp only
  split_ifs <;> rfl

@[simp] theorem sbrk_sbrks : (sbrk n h).2.sbrks = h.sbrks ++ [n.toInt] := by
  unfold sbrk
  dsimp only
  split_ifs <;> rfl

/-- `sbrk` never moves the break up by more than it was asked. -/
theorem sbrk_brk_le : (sbrk n h).2.brk ≤ h.brk + n.toInt.toNat := by
  unfold sbrk
  dsimp only
  split_ifs <;> dsimp only <;> omega

/-- `sbrk` answers with the old break, or refuses. -/
theorem sbrk_fst : (sbrk n h).1 = none ∨ (sbrk n h).1 = some h.brk := by
  unfold sbrk
  dsimp only
  split_ifs
  · exact .inl rfl
  all_goals exact .inr rfl

end Sbrk

/-! ## The steps of the first `malloc` -/

/-- The first `malloc` makes `base` a list of its own and starts the loop at it. -/
theorem malloc_init (fuel : Nat) (nbytes : UInt32) (base brk limit : Nat) :
    malloc fuel nbytes (UHeap.init base brk limit) =
      mallocLoop (nunitsOf nbytes) fuel base base
        ⟨Function.update (fun _ => ⟨0, 0⟩) base ⟨base, 0⟩, base, base, brk, limit, []⟩ := by
  simp [malloc, UHeap.init]

/-- A block too small at `freep`: the loop has gone round and calls `morecore`, and goes on
from the block `morecore` returns, or gives up when that is `0`. -/
theorem mallocLoop_morecore {nunits : UInt32} {fuel prevp p q : Nat} {h h' : UHeap}
    (hsmall : (h.mem p).size < nunits) (hp : p = h.freep)
    (hm : morecore fuel nunits h = some (q, h')) :
    mallocLoop nunits (fuel + 1) prevp p h =
      if q = 0 then some (0, h') else mallocLoop nunits fuel q (h'.mem q).ptr h' := by
  have hbig : ¬ (h.mem p).size ≥ nunits := by
    intro hge
    rw [ge_iff_le, UInt32.le_iff_toNat_le] at hge
    rw [UInt32.lt_iff_toNat_lt] at hsmall
    omega
  rw [mallocLoop, if_neg hbig, if_pos hp, hm]
  cases q <;> rfl

/-- A block of exactly `nunits` headers is unlinked whole. -/
theorem mallocLoop_exact {nunits : UInt32} {fuel prevp p : Nat} {h : UHeap}
    (hfit : (h.mem p).size = nunits) :
    mallocLoop nunits (fuel + 1) prevp p h =
      some (p + HEADER_SIZE, { h with mem := setPtr h.mem prevp (h.mem p).ptr, freep := prevp }) := by
  rw [mallocLoop, if_pos (by rw [hfit]; exact UInt32.le_refl nunits), if_pos hfit]

/-- `free` into the list of `base` alone, of a block above `base`: the block is linked after
`base` and before it, with neither joined to the other. -/
theorem free_single {fuel bp : Nat} {h : UHeap} (hbase : h.mem h.freep = ⟨h.freep, 0⟩)
    (hlt : h.freep < bp) :
    free (fuel + 1) (bp + HEADER_SIZE) h =
      some { h with mem := setPtr (setPtr h.mem bp h.freep) h.freep bp } := by
  have hbp : bp + HEADER_SIZE - HEADER_SIZE = bp := Nat.add_sub_cancel bp HEADER_SIZE
  have hne : h.freep ≠ bp := Nat.ne_of_lt hlt
  have hscan : freeScan h.mem bp (fuel + 1) h.freep = some h.freep := by
    simp [freeScan, hbase, hlt]
  -- the upper neighbour is `base`, below `bp`; the lower one is `base`, of size zero
  have hup : bp + HEADER_SIZE * (h.mem bp).size.toNat ≠ h.freep := by omega
  have hlow : h.freep + HEADER_SIZE * (setPtr h.mem bp h.freep h.freep).size.toNat ≠ bp := by
    rw [setPtr_of_ne _ hne, hbase]
    simpa using hne
  simp only [free, hbp, hscan, hbase, Option.pure_def, Option.bind_eq_bind, Option.bind_some]
  rw [if_neg hup, if_neg hlow]

/-- `morecore` when `sbrk` refuses. -/
theorem morecore_refused {fuel : Nat} {nu nu' : UInt32} {h : UHeap}
    (hnu : nu' = if nu < 4096 then 4096 else nu) (hs : (sbrk (morecoreArg nu') h).1 = none) :
    morecore fuel nu h = some (0, (sbrk (morecoreArg nu') h).2) := by
  have hsplit : sbrk (morecoreArg nu') h = (none, (sbrk (morecoreArg nu') h).2) := by
    rw [← hs]
  simp only [morecore, ← hnu]
  rw [hsplit]

/-- `morecore` when `sbrk` grants the block at the break, into the list of `base` alone. -/
theorem morecore_single {fuel : Nat} {nu nu' : UInt32} {h : UHeap}
    (hnu : nu' = if nu < 4096 then 4096 else nu) (hbase : h.mem h.freep = ⟨h.freep, 0⟩)
    (hlt : h.freep < h.brk) (hs : (sbrk (morecoreArg nu') h).1 = some h.brk) :
    morecore (fuel + 1) nu h =
      some (h.freep, { (sbrk (morecoreArg nu') h).2 with
        mem := setPtr (setPtr (setSize h.mem h.brk nu') h.brk h.freep) h.freep h.brk }) := by
  have hsplit : sbrk (morecoreArg nu') h = (some h.brk, (sbrk (morecoreArg nu') h).2) := by
    rw [← hs]
  have hne : h.freep ≠ h.brk := Nat.ne_of_lt hlt
  have hbase' : setSize h.mem h.brk nu' h.freep = ⟨h.freep, 0⟩ := by
    rw [setSize_of_ne _ hne, hbase]
  simp only [morecore, ← hnu]
  rw [hsplit]
  dsimp only
  rw [free_single (by simpa using hbase') (by simpa using hlt)]
  simp

@[simp] theorem setPtr_setPtr (mem : Nat → Header) (a q q' : Nat) :
    setPtr (setPtr mem a q) a q' = setPtr mem a q' := by
  funext b
  by_cases hb : b = a
  · subst hb
    simp
  · rw [setPtr_of_ne _ hb, setPtr_of_ne _ hb, setPtr_of_ne _ hb]

/-- The first `morecore` of a program, for a block of 4096 headers or more: the new block is
linked after `base` and taken whole on the next round, leaving `base` alone again. -/
theorem mallocLoop_single_grant {nunits : UInt32} {fuel prevp : Nat} {h : UHeap}
    (hbase : h.mem h.freep = ⟨h.freep, 0⟩) (h0 : 0 < h.freep) (hlt : h.freep < h.brk)
    (hpos : 0 < nunits.toNat) (hbig : ¬ nunits < 4096)
    (hs : (sbrk (morecoreArg nunits) h).1 = some h.brk) :
    mallocLoop nunits (fuel + 2) prevp h.freep h =
      some (h.brk + HEADER_SIZE, { (sbrk (morecoreArg nunits) h).2 with
        mem := setPtr (setPtr (setSize h.mem h.brk nunits) h.brk h.freep) h.freep h.freep
        freep := h.freep }) := by
  have hnu : nunits = if nunits < 4096 then 4096 else nunits := by rw [if_neg hbig]
  have hsmall : (h.mem h.freep).size < nunits := by
    rw [hbase, UInt32.lt_iff_toNat_lt]
    exact hpos
  have hne : h.brk ≠ h.freep := Nat.ne_of_gt hlt
  have hfit : (setPtr (setPtr (setSize h.mem h.brk nunits) h.brk h.freep) h.freep h.brk h.brk).size =
      nunits := by
    rw [setPtr_of_ne _ hne, setPtr_self, setSize_self]
  rw [mallocLoop_morecore hsmall rfl (morecore_single hnu hbase hlt hs),
    if_neg (Nat.pos_iff_ne_zero.mp h0)]
  dsimp only
  rw [setPtr_self, mallocLoop_exact hfit]
  dsimp only
  rw [setPtr_of_ne _ hne, setPtr_self, setPtr_setPtr]

/-! ## Requests of `2 ^ 31 - 31` bytes and more -/

/-- Such a block is `2 ^ 27` headers or more: past the 4096 of `morecore`, and more bytes than
an `int` holds. -/
theorem nunitsOf_big {nbytes : UInt32} (hbig : 2 ^ 31 - 31 ≤ nbytes.toNat) :
    ¬ nunitsOf nbytes < 4096 ∧ 2 ^ 31 ≤ (nunitsOf nbytes).toNat * HEADER_SIZE := by
  have hn := nunitsOf_toNat nbytes
  simp only [HEADER_SIZE] at hn ⊢
  refine ⟨?_, by omega⟩
  rw [UInt32.lt_iff_toNat_lt]
  simp only [UInt32.reduceToNat]
  omega

theorem malloc_block_past_break (fuel : Nat) (nbytes : UInt32) (hbig : 2 ^ 31 - 31 ≤ nbytes.toNat)
    (base brk limit : Nat) (hb : base < brk) :
    ∃ p h', malloc (fuel + 2) nbytes (UHeap.init base brk limit) = some (p, h') ∧
      h'.sbrks = [(morecoreArg (nunitsOf nbytes)).toInt] ∧
      (morecoreArg (nunitsOf nbytes)).toInt ≠ (nunitsOf nbytes).toNat * HEADER_SIZE ∧
      (p = 0 ∨ p = brk + HEADER_SIZE ∧ (h'.mem brk).size = nunitsOf nbytes ∧
        h'.brk < brk + HEADER_SIZE * (nunitsOf nbytes).toNat) := by
  obtain ⟨hnot, hbytes⟩ := nunitsOf_big hbig
  have hnu : nunitsOf nbytes = if nunitsOf nbytes < 4096 then 4096 else nunitsOf nbytes := by
    rw [if_neg hnot]
  -- the heap once `base` is a list of its own; `base` is too small and is `freep`
  let h1 : UHeap := ⟨Function.update (fun _ => ⟨0, 0⟩) base ⟨base, 0⟩, base, base, brk, limit, []⟩
  have hsmall : (h1.mem base).size < nunitsOf nbytes := by
    rw [UInt32.lt_iff_toNat_lt]
    simpa [h1] using nunitsOf_pos nbytes
  rw [malloc_init]
  rcases sbrk_fst (morecoreArg (nunitsOf nbytes)) h1 with hs | hs
  · rw [mallocLoop_morecore hsmall rfl (morecore_refused hnu hs), if_pos rfl]
    exact ⟨0, _, rfl, by simp [h1], morecoreArg_truncated hbytes, .inl rfl⟩
  rcases Nat.eq_zero_or_pos base with rfl | h0
  · -- a `base` at address zero reads as a failed `morecore`
    rw [mallocLoop_morecore hsmall rfl (morecore_single hnu (by simp [h1]) hb hs), if_pos rfl]
    exact ⟨0, _, rfl, by simp [h1], morecoreArg_truncated hbytes, .inl rfl⟩
  have hne : brk ≠ base := Nat.ne_of_gt hb
  rw [mallocLoop_single_grant (h := h1) (by simp [h1]) h0 hb (nunitsOf_pos nbytes) hnot hs]
  refine ⟨_, _, rfl, by simp [h1], morecoreArg_truncated hbytes, .inr ⟨rfl, ?_, ?_⟩⟩
  · simp [h1, setPtr_of_ne _ hne]
  · -- the break moved up by at most the truncated argument, which is below `2 ^ 31`
    have hle : _ ≤ brk + _ := sbrk_brk_le (morecoreArg (nunitsOf nbytes)) h1
    have hlt := (morecoreArg (nunitsOf nbytes)).toInt_lt
    simp only [HEADER_SIZE] at hbytes ⊢
    omega

theorem malloc_block_past_break_at_two_gib :
    2 ^ 31 - 31 ≤ (2147483648 : UInt32).toNat ∧ 4096 < 16384 ∧
      ∃ p h', malloc 2 2147483648 (UHeap.init 4096 16384 (2 ^ 38)) = some (p, h') ∧
        h'.sbrks = [(morecoreArg (nunitsOf 2147483648)).toInt] ∧
        (morecoreArg (nunitsOf 2147483648)).toInt ≠ (nunitsOf 2147483648).toNat * HEADER_SIZE ∧
        (p = 0 ∨ p = 16384 + HEADER_SIZE ∧ (h'.mem 16384).size = nunitsOf 2147483648 ∧
          h'.brk < 16384 + HEADER_SIZE * (nunitsOf 2147483648).toNat) :=
  ⟨by decide, by decide,
    malloc_block_past_break 0 2147483648 (by decide) 4096 16384 (2 ^ 38) (by decide)⟩

/- `malloc(2^31)` from a heap at `0x4000`: `sbrk(-2147483632)`, the break stays, and the block
returned at `0x4010` claims `2 ^ 27 + 1` headers above it. -/
example : (malloc 2 2147483648 (UHeap.init 4096 16384 (2 ^ 38))).map
    (fun r => (r.1, r.2.sbrks, r.2.brk, (r.2.mem 16384).size)) =
      some (16400, [-2147483632], 16384, 134217729) := by
  decide

end Xv6
