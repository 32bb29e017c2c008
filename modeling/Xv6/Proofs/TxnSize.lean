import Mathlib
import Xv6.FsBlocks

/-!
# How many blocks a `filewrite` transaction logs

`filewrite` cuts a write into chunks of at most `((MAXOPBLOCKS-1-1-2) / 2) * BSIZE` bytes and
runs each chunk's `writei` in its own transaction, so that the blocks it logs fit the
`MAXOPBLOCKS` that `begin_op` reserved. A chunk logs the bitmap block (every block `balloc`
hands out has its bit in the one bitmap block, as `FSSIZE < BPB`), the inode's indirect block
(set once, when it was `0`), the inode's own block, and one block for each block of the file the
chunk touches, at most four however it is aligned (`writeiLoop_logged`): seven in all
(`writei_chunk_card`). This holds for every state of the blocks, every offset and every length
(`filewrite_txn_fits`).
-/

namespace Xv6.Blocks

variable {sb : Superblock}

section Fields

variable (s : BState) (b ip k a : Nat)

@[simp] theorem BState.logWrite_logged : (s.logWrite b).logged = s.logged ++ [b] := rfl
@[simp] theorem BState.logWrite_addrs : (s.logWrite b).addrs = s.addrs := rfl
@[simp] theorem BState.logWrite_size : (s.logWrite b).size = s.size := rfl
@[simp] theorem BState.setAddr_logged : (s.setAddr ip k a).logged = s.logged := rfl
@[simp] theorem BState.setAddr_size : (s.setAddr ip k a).size = s.size := rfl
@[simp] theorem BState.setAddr_addrs : (s.setAddr ip k a).addrs =
    Function.update s.addrs ip (Function.update (s.addrs ip) k a) := rfl
@[simp] theorem bzero_logged : (bzero b s).logged = s.logged ++ [b] := rfl
@[simp] theorem bzero_addrs : (bzero b s).addrs = s.addrs := rfl
@[simp] theorem bzero_size : (bzero b s).size = s.size := rfl

end Fields

theorem BBLOCK_of_lt (hsb : sb.size ≤ BPB) {b : Nat} (hb : b < sb.size) :
    BBLOCK sb b = sb.bmapstart := by
  unfold BBLOCK
  rw [Nat.div_eq_of_lt (by omega), Nat.zero_add]

/-- What `balloc` logs: nothing, or the bitmap block and the block it hands out. -/
theorem balloc_spec (sb : Superblock) (s : BState) :
    (balloc sb s).2.addrs = s.addrs ∧ (balloc sb s).2.size = s.size ∧
    ((balloc sb s).2.logged = s.logged ∨ ((balloc sb s).1 < sb.size ∧
      (balloc sb s).2.logged = s.logged ++ [BBLOCK sb (balloc sb s).1, (balloc sb s).1])) := by
  unfold balloc
  split
  · simp
  · next b hb =>
    have hlt := List.mem_range.mp (List.mem_of_find?_eq_some hb)
    simp [hlt]

/-- A block `balloc` logs is the bitmap block or the block it returns. -/
theorem balloc_logged (hsb : sb.size ≤ BPB) (s : BState) :
    ∃ L, (balloc sb s).2.logged = s.logged ++ L ∧
      ∀ x ∈ L, x = sb.bmapstart ∨ x = (balloc sb s).1 := by
  obtain ⟨-, -, h | ⟨hlt, h⟩⟩ := balloc_spec sb s
  · exact ⟨[], by simp [h], by simp⟩
  · refine ⟨_, h, ?_⟩
    simp [BBLOCK_of_lt hsb hlt]

/-- `indirectBlock` logs the bitmap block or the block it returns, and sets the indirect
address only when it was `0`, to what it returns. -/
theorem indirectBlock_spec (hsb : sb.size ≤ BPB) (ip : Nat) (s : BState) :
    (indirectBlock sb ip s).2.size = s.size ∧
    ((indirectBlock sb ip s).1 ≠ 0 →
      (indirectBlock sb ip s).2.addrs ip NDIRECT = (indirectBlock sb ip s).1) ∧
    (s.addrs ip NDIRECT ≠ 0 → (indirectBlock sb ip s).1 = s.addrs ip NDIRECT) ∧
    ∃ L, (indirectBlock sb ip s).2.logged = s.logged ++ L ∧
      ∀ x ∈ L, x = sb.bmapstart ∨ x = (indirectBlock sb ip s).1 := by
  obtain ⟨ha, hs, -⟩ := balloc_spec sb s
  obtain ⟨L, hL, hLx⟩ := balloc_logged hsb s
  unfold indirectBlock
  by_cases h0 : s.addrs ip NDIRECT = 0
  · simp only [if_pos h0]
    split_ifs with hb
    · exact ⟨hs, fun h => absurd hb h, fun h => absurd h0 h, L, hL, hLx⟩
    · exact ⟨by simp [hs], fun _ => by simp, fun h => absurd h0 h, L, by simp [hL], hLx⟩
  · rw [if_neg h0]
    exact ⟨rfl, fun _ => rfl, fun _ => rfl, [], by simp, by simp⟩


/-- What `bmap` logs: the bitmap block, the address it returns, or the inode's indirect block,
which it sets only when it was `0`. -/
theorem bmap_spec (hsb : sb.size ≤ BPB) (ip bn : Nat) (s : BState) :
    (bmap sb ip bn s).2.size = s.size ∧
    (s.addrs ip NDIRECT ≠ 0 → (bmap sb ip bn s).2.addrs ip NDIRECT = s.addrs ip NDIRECT) ∧
    ∃ L, (bmap sb ip bn s).2.logged = s.logged ++ L ∧ ∀ x ∈ L, x = sb.bmapstart ∨
      x = (bmap sb ip bn s).1 ∨ (x = (bmap sb ip bn s).2.addrs ip NDIRECT ∧ x ≠ 0) := by
  unfold bmap
  by_cases hd : bn < NDIRECT
  · rw [if_pos hd]
    by_cases h0 : s.addrs ip bn = 0
    · rw [if_pos h0]
      obtain ⟨ha, hs, -⟩ := balloc_spec sb s
      obtain ⟨L, hL, hLx⟩ := balloc_logged hsb s
      have hne : NDIRECT ≠ bn := by omega
      dsimp only
      split_ifs with hb
      · refine ⟨hs, fun _ => by rw [ha], L, hL, fun x hx => ?_⟩
        rcases hLx x hx with h | h
        · exact .inl h
        · exact .inr (.inl (h.trans hb))
      · refine ⟨by simp [hs], fun _ => by simp [ha, Function.update_of_ne hne], L, by simp [hL],
          fun x hx => (hLx x hx).imp_right .inl⟩
    · rw [if_neg h0]
      exact ⟨rfl, fun _ => rfl, [], by simp, by simp⟩
  · rw [if_neg hd]
    obtain ⟨hs1, hset, hkeep, L1, hL1, hL1x⟩ := indirectBlock_spec hsb ip s
    dsimp only
    generalize indirectBlock sb ip s = r at hs1 hset hkeep hL1 hL1x ⊢
    obtain ⟨a, s1⟩ := r
    simp only at hs1 hset hkeep hL1 hL1x ⊢
    obtain ⟨ha2, hs2, -⟩ := balloc_spec sb s1
    obtain ⟨L2, hL2, hL2x⟩ := balloc_logged hsb s1
    split_ifs with ha0 hi0 hb
    -- no indirect block could be had
    · refine ⟨hs1, fun h => absurd (hkeep h ▸ ha0) h, L1, hL1,
        fun x hx => (hL1x x hx).imp_right fun h => .inl (h.trans ha0)⟩
    -- the entry is missing and no block could be had
    · refine ⟨by rw [hs2, hs1], fun h => by rw [ha2, hset ha0, hkeep h], L1 ++ L2,
        by rw [hL2, hL1, List.append_assoc], fun x hx => ?_⟩
      rcases List.mem_append.mp hx with hx | hx
      · exact (hL1x x hx).imp_right fun (h : x = a) => .inr ⟨by rw [ha2, hset ha0, h], h ▸ ha0⟩
      · exact (hL2x x hx).imp_right fun h => .inl (h.trans hb)
    -- the entry is allocated, and the indirect block logged
    · refine ⟨by simp [hs2, hs1], fun h => by simp [ha2, hset ha0, hkeep h], L1 ++ L2 ++ [a],
        by simp [hL2, hL1], fun x hx => ?_⟩
      simp only [List.mem_append, List.mem_singleton] at hx
      rcases hx with (hx | hx) | rfl
      · exact (hL1x x hx).imp_right fun (h : x = a) => .inr ⟨by simp [ha2, hset ha0, h], h ▸ ha0⟩
      · exact (hL2x x hx).imp_right .inl
      · exact .inr (.inr ⟨by simp [ha2, hset ha0], ha0⟩)
    -- the entry is there
    · refine ⟨hs1, fun h => (hset ha0).trans (hkeep h), L1, hL1,
        fun x hx => (hL1x x hx).imp_right fun (h : x = a) => .inr ⟨h.trans (hset ha0).symm, h ▸ ha0⟩⟩


/-- The blocks a write of `rem` bytes at offset `off` touches. -/
def blocksTouched (off rem : Nat) : Nat :=
  if rem = 0 then 0 else (off % BSIZE + rem - 1) / BSIZE + 1

/-- One round of `writei` touches one block, and the rest of the write the others. -/
theorem blocksTouched_step (off : Nat) {tot n : Nat} (h : tot < n) :
    1 + blocksTouched (off + min (n - tot) (BSIZE - off % BSIZE))
      (n - (tot + min (n - tot) (BSIZE - off % BSIZE))) ≤ blocksTouched off (n - tot) := by
  unfold blocksTouched BSIZE
  split_ifs <;> omega

/-- A chunk of `filewrite` touches at most four blocks, however it is aligned. -/
theorem blocksTouched_le_of_le_max (off : Nat) {n : Nat} (h : n ≤ filewriteMax) :
    blocksTouched off n ≤ 4 := by
  unfold blocksTouched filewriteMax MAXOPBLOCKS BSIZE at *
  split_ifs <;> omega

/-- What the loop of `writei` logs: the bitmap block, the indirect block it ends with, and one
block for each block of the file it touches. -/
theorem writeiLoop_logged (hsb : sb.size ≤ BPB) (ip : Nat) (cok : Nat → Bool) (n : Nat) :
    ∀ fuel tot off s,
      (s.addrs ip NDIRECT ≠ 0 →
        (writeiLoop sb ip cok n fuel tot off s).2.2.addrs ip NDIRECT = s.addrs ip NDIRECT) ∧
      (writeiLoop sb ip cok n fuel tot off s).2.2.size = s.size ∧
      ∃ L D : List Nat, (writeiLoop sb ip cok n fuel tot off s).2.2.logged = s.logged ++ L ∧
        D.length ≤ blocksTouched off (n - tot) ∧ ∀ x ∈ L, x = sb.bmapstart ∨
          (x = (writeiLoop sb ip cok n fuel tot off s).2.2.addrs ip NDIRECT ∧ x ≠ 0) ∨ x ∈ D := by
  intro fuel
  induction fuel with
  | zero => exact fun tot off s => ⟨fun _ => rfl, rfl, [], [], by simp [writeiLoop], by simp,
      by simp⟩
  | succ fuel ih =>
    intro tot off s
    unfold writeiLoop
    by_cases hn : tot < n
    · rw [if_pos hn]
      have hpos : 0 < blocksTouched off (n - tot) := by
        unfold blocksTouched
        rw [if_neg (by omega)]
        exact Nat.succ_pos _
      obtain ⟨hs1, hkeep1, Lb, hLb, hLbx⟩ := bmap_spec hsb ip (off / BSIZE) s
      dsimp only
      generalize bmap sb ip (off / BSIZE) s = r at hs1 hkeep1 hLb hLbx ⊢
      obtain ⟨a, s1⟩ := r
      simp only at hs1 hkeep1 hLb hLbx ⊢
      -- the block written, or the `0` `bmap` returned, is this round's block
      have hround : ∀ x ∈ Lb, x = sb.bmapstart ∨ (x = s1.addrs ip NDIRECT ∧ x ≠ 0) ∨ x ∈ [a] :=
        fun x hx => (hLbx x hx).imp_right fun h => h.elim (fun h => .inr (by simp [h])) .inl
      split_ifs with ha hc
      · exact ⟨hkeep1, hs1, Lb, [a], hLb, hpos, hround⟩
      · exact ⟨hkeep1, hs1, Lb, [a], hLb, hpos, hround⟩
      · obtain ⟨hkeep2, hs2, L', D', hL', hD', hL'x⟩ :=
          ih (tot + min (n - tot) (BSIZE - off % BSIZE))
            (off + min (n - tot) (BSIZE - off % BSIZE)) (s1.logWrite a)
        simp only [BState.logWrite_addrs, BState.logWrite_size, BState.logWrite_logged]
          at hkeep2 hs2 hL'
        refine ⟨fun h => (hkeep2 (by rwa [hkeep1 h])).trans (hkeep1 h), hs2.trans hs1,
          Lb ++ [a] ++ L', a :: D', by simp [hL', hLb], ?_, fun x hx => ?_⟩
        · have := blocksTouched_step off hn
          simp only [List.length_cons]
          omega
        simp only [List.mem_append, List.mem_singleton] at hx
        rcases hx with (hx | rfl) | hx
        · rcases hround x hx with h | ⟨h, h0⟩ | h
          · exact .inl h
          · exact .inr (.inl ⟨h.trans (hkeep2 (h ▸ h0)).symm, h0⟩)
          · exact .inr (.inr (by simp_all))
        · exact .inr (.inr (by simp))
        · exact (hL'x x hx).imp_right (Or.imp_right (List.mem_cons_of_mem a))
    · rw [if_neg hn]
      exact ⟨fun _ => rfl, rfl, [], [], by simp, by simp, by simp⟩


/-- What `writei` logs: the loop's blocks and the inode's block. -/
theorem writei_logged (hsb : sb.size ≤ BPB) (ip : Nat) (cok : Nat → Bool) (off n : Nat)
    (s : BState) :
    ∃ L D : List Nat, (writei sb ip cok off n s).2.logged = s.logged ++ L ∧
      D.length ≤ blocksTouched off n ∧ ∀ x ∈ L,
        x ∈ sb.bmapstart :: IBLOCK sb ip :: (writei sb ip cok off n s).2.addrs ip NDIRECT :: D := by
  unfold writei
  split_ifs
  · exact ⟨[], [], by simp, by simp, by simp⟩
  · exact ⟨[], [], by simp, by simp, by simp⟩
  · obtain ⟨-, -, L, D, hL, hD, hLx⟩ := writeiLoop_logged hsb ip cok n n 0 off s
    generalize writeiLoop sb ip cok n n 0 off s = r at hL hLx ⊢
    obtain ⟨tot, off', s'⟩ := r
    -- the size, if it grows, is set before `iupdate` logs the inode's block
    have hstate : ∀ t : BState, t.addrs = s'.addrs → t.logged = s'.logged →
        (iupdate sb ip t).addrs = s'.addrs ∧ (iupdate sb ip t).logged = s'.logged ++ [IBLOCK sb ip] :=
      fun t ha hl => ⟨ha, by simp [iupdate, hl]⟩
    obtain ⟨ha, hl⟩ := hstate (if s.size ip < off' then
      { s' with size := Function.update s'.size ip off' } else s') (by split_ifs <;> rfl)
      (by split_ifs <;> rfl)
    simp only at hL hLx ⊢
    refine ⟨L ++ [IBLOCK sb ip], D, by rw [hl, hL, List.append_assoc], by simpa using hD,
      fun x hx => ?_⟩
    rw [ha]
    rcases List.mem_append.mp hx with hx | hx
    · rcases hLx x hx with h | ⟨h, -⟩ | h
      · simp [h]
      · simp [h]
      · simp [h]
    · simp_all

/-- A list of blocks drawn from `S` has at most `S.length` distinct blocks. -/
theorem card_toFinset_le_of_forall_mem {l S : List Nat} (h : ∀ x ∈ l, x ∈ S) :
    l.toFinset.card ≤ S.length :=
  (Finset.card_le_card fun x hx => List.mem_toFinset.mpr (h x (List.mem_toFinset.mp hx))).trans
    (List.toFinset_card_le S)

/-- A transaction of `filewrite` logs at most seven distinct blocks: the bitmap block, the
inode's block, its indirect block and the (at most four) blocks of the chunk. -/
theorem writei_chunk_card (hsb : sb.size ≤ BPB) (ip : Nat) (cok : Nat → Bool) (off n : Nat)
    (hn : n ≤ filewriteMax) (s : BState) :
    (writei sb ip cok off n { s with logged := [] }).2.logged.toFinset.card ≤ 7 := by
  obtain ⟨L, D, hL, hD, hLx⟩ := writei_logged hsb ip cok off n { s with logged := [] }
  have h4 := blocksTouched_le_of_le_max off hn
  rw [hL, List.nil_append]
  calc L.toFinset.card
      ≤ (sb.bmapstart :: IBLOCK sb ip :: _ :: D).length := card_toFinset_le_of_forall_mem hLx
    _ = D.length + 3 := by simp
    _ ≤ 7 := by omega

/-- Every transaction of the loop of `filewrite` fits: each is one `writei` of at most
`filewriteMax` bytes. -/
theorem filewriteLoop_fits (hsb : sb.size ≤ BPB) (ip : Nat) (cok : Nat → Bool) (n : Int) :
    ∀ fuel i off s, ∀ L ∈ (filewriteLoop sb ip cok n fuel i off s).1,
      L.toFinset.card ≤ MAXOPBLOCKS := by
  intro fuel
  induction fuel with
  | zero => simp [filewriteLoop]
  | succ fuel ih =>
    intro i off s L hL
    unfold filewriteLoop at hL
    by_cases hi : i < n
    · rw [if_pos hi] at hL
      have hmax : (min (n - i) filewriteMax).toNat ≤ filewriteMax := by omega
      have hone := writei_chunk_card hsb ip (fun t => cok (i.toNat + t)) off _ hmax s
      have h10 : 7 ≤ MAXOPBLOCKS := by decide
      dsimp only at hL
      generalize writei sb ip (fun t => cok (i.toNat + t)) off (min (n - i) filewriteMax).toNat
        { s with logged := [] } = w at hL hone
      by_cases hw : w.1 ≠ min (n - i) filewriteMax
      -- a short write: its transaction is the last
      · rw [if_pos hw, List.mem_singleton] at hL
        rw [hL]
        omega
      · rw [if_neg hw] at hL
        rcases List.mem_cons.mp hL with rfl | hL
        · omega
        · exact ih _ _ _ L hL
    · rw [if_neg hi] at hL
      simp at hL

/-- Every transaction that `filewrite` runs on an inode file logs at most `MAXOPBLOCKS` distinct
blocks, for every state of the blocks, every offset and every length, with the superblock
`mkfs` writes. -/
theorem filewrite_txn_fits (ip : Nat) (cok : Nat → Bool) (off : Nat) (n : Int) (s : BState) :
    ∀ L ∈ (filewrite sbMkfs ip cok off n s).1, L.toFinset.card ≤ MAXOPBLOCKS :=
  filewriteLoop_fits (by decide) ip cok n _ 0 off s

/-- One byte written at offset `0` of inode `1`, whose blocks are all there: one transaction,
which logs the data block and the inode's block. -/
theorem filewrite_txn_fits_one_byte :
    let s : BState := ⟨fun _ => true, fun _ _ => 100, fun _ => 0, fun _ _ => 100, []⟩
    [100, 33] ∈ (filewrite sbMkfs 1 (fun _ => true) 0 1 s).1 ∧
      [100, 33].toFinset.card ≤ MAXOPBLOCKS := by
  intro s
  have hmem : [100, 33] ∈ (filewrite sbMkfs 1 (fun _ => true) 0 1 s).1 := by decide
  exact ⟨hmem, filewrite_txn_fits 1 (fun _ => true) 0 1 s [100, 33] hmem⟩

end Xv6.Blocks
