import Mathlib
import Xv6.Log

/-!
# Crash atomicity of the log

A transaction `lh` whose blocks hold `cache` in the buffer cache is committed on a disk `d0`
whose log is clear. Whatever prefix of `commit`'s writes reaches the disk, and however many
runs of `recover_from_log` are cut short after it, the run of `recover_from_log` that
completes leaves every block outside the log as in `d0` or as in `d0` with the whole
transaction installed, and the header clear.

The argument follows the header, which is the commit point. Before `write_head(lh)` reaches
the disk the header is clear and the home blocks are untouched (`Clear`); from then on the
header names `lh` and the log blocks hold its contents (`Committed`) until the final
`write_head` clears it with every home block installed. Recovery keeps each of these phases
and completes the second.
-/

namespace Xv6

open Writes

/-! ## The header block -/

@[simp]
theorem putHead_zero (b : Block) (lh : List Nat) : putHead b lh 0 = lh.length := rfl

/-- `read_head` reads back what `write_head` wrote. -/
@[simp]
theorem readHead_update_self (start : Nat) (d : Disk) (b : Block) (lh : List Nat) :
    readHead start (Function.update d start (putHead b lh)) = lh := by
  apply List.ext_getElem
  · simp [readHead]
  · intro i _ hi
    simp only [readHead, List.getElem_map, List.getElem_range, Function.update_self, putHead]
    rw [if_neg (Nat.succ_ne_zero i), if_pos (show i + 1 ≤ lh.length by omega),
      Nat.add_sub_cancel, List.getD_eq_getElem?_getD, List.getElem?_eq_getElem hi, Option.getD_some]
    simp

theorem readHead_update_of_ne {start x : Nat} (h : x ≠ start) (d : Disk) (v : Block) :
    readHead start (Function.update d x v) = readHead start d := by
  simp [readHead, Function.update_of_ne h.symm]

theorem readHead_of_clear {start : Nat} {d : Disk} (h : d start 0 = 0) : readHead start d = [] := by
  simp [readHead, h]

/-! ## What each loop writes -/

theorem NonLog.ne_start {start x : Nat} (h : NonLog start x) : x ≠ start := by
  unfold NonLog at h
  omega

/-- A log block is not a home block. -/
theorem NonLog.ne_log {start x i : Nat} (h : NonLog start x) (hi : i < LOGBLOCKS) :
    x ≠ start + i + 1 := by
  unfold NonLog at h
  omega

@[simp]
theorem length_writeLogLoop (start : Nat) (cache : Nat → Block) (tail : Nat) (l : List Nat) :
    (writeLogLoop start cache tail l).length = l.length := by
  induction l generalizing tail with
  | nil => rfl
  | cons b rest ih => simp [writeLogLoop, ih]

/-- Each command of `write_log` writes a log block past the header. -/
theorem writeLogLoop_target {start tail : Nat} {cache : Nat → Block} {l : List Nat}
    {c : Cmd Nat Block} (hc : c ∈ writeLogLoop start cache tail l) (d : Disk) :
    ∃ i < l.length, (c d).1 = start + (tail + i) + 1 := by
  induction l generalizing tail with
  | nil => cases hc
  | cons b rest ih =>
    rcases List.mem_cons.mp hc with rfl | hc
    · exact ⟨0, by simp, rfl⟩
    · obtain ⟨i, hi, he⟩ := ih hc
      exact ⟨i + 1, by simp; omega, by rw [he]; omega⟩

/-- After `write_log`, log block `start + tail + i + 1` holds the cached `l[i]`. -/
theorem exec_writeLogLoop {start tail : Nat} {cache : Nat → Block} {l : List Nat} {i : Nat}
    (hi : i < l.length) (d : Disk) :
    exec (writeLogLoop start cache tail l) d (start + (tail + i) + 1) = cache l[i] := by
  induction l generalizing tail i d with
  | nil => cases hi
  | cons b rest ih =>
    rw [writeLogLoop, exec_cons]
    cases i with
    | zero =>
      -- the later writes go to later log blocks
      rw [exec_other]
      · exact Function.update_self _ _ _
      · intro c hc m
        obtain ⟨j, -, hj⟩ := writeLogLoop_target hc m
        omega
    | succ i =>
      rw [show start + (tail + (i + 1)) + 1 = start + (tail + 1 + i) + 1 by omega]
      exact ih (by simpa using hi) _

/-- Each command of `install_trans` writes one of the transaction's blocks. -/
theorem installTransLoop_target {start tail : Nat} {l : List Nat} {c : Cmd Nat Block}
    (hc : c ∈ installTransLoop start tail l) (d : Disk) : (c d).1 ∈ l := by
  induction l generalizing tail with
  | nil => cases hc
  | cons b rest ih =>
    rcases List.mem_cons.mp hc with rfl | hc
    · exact List.mem_cons_self
    · exact List.mem_cons_of_mem _ (ih hc)

/-- `install_trans` run while the log blocks hold the transaction's contents installs the
transaction: each block it names gets its cached contents, every other block is kept. -/
theorem exec_installTransLoop {start tail : Nat} {cache : Nat → Block} {l : List Nat}
    (hhome : ∀ b ∈ l, NonLog start b) (hroom : tail + l.length ≤ LOGBLOCKS) {d : Disk}
    (hlog : ∀ i (hi : i < l.length), d (start + (tail + i) + 1) = cache l[i]) (x : Nat) :
    exec (installTransLoop start tail l) d x = if x ∈ l then cache x else d x := by
  induction l generalizing tail d with
  | nil => simp [installTransLoop]
  | cons b rest ih =>
    have hb : d (start + tail + 1) = cache b := hlog 0 (by simp)
    -- the copy of `b` leaves the later log blocks as they were
    have hlog' : ∀ i (hi : i < rest.length),
        Function.update d b (cache b) (start + (tail + 1 + i) + 1) = cache rest[i] := by
      intro i hi
      have hne : b ≠ start + (tail + 1 + i) + 1 :=
        (hhome b List.mem_cons_self).ne_log (by simp at hroom; omega)
      rw [Function.update_of_ne hne.symm, show tail + 1 + i = tail + (i + 1) by omega]
      exact hlog (i + 1) (by simp; omega)
    rw [installTransLoop, exec_cons, show Cmd.run _ d = Function.update d b (cache b) by
      rw [← hb]; rfl]
    rw [ih (fun b' hb' => hhome b' (List.mem_cons_of_mem _ hb')) (by simp at hroom; omega) hlog']
    by_cases hx : x ∈ rest
    · simp [hx]
    · by_cases hxb : x = b
      · simp [hxb]
      · simp [hx, hxb]

/-! ## Where a disk stands in the transaction -/

/-- The blocks outside the log agree. -/
def SameHome (start : Nat) (d d' : Disk) : Prop := ∀ x, NonLog start x → d x = d' x

/-- The transaction `lh` installed over `d0` all at once. -/
def postTrans (d0 : Disk) (lh : List Nat) (cache : Nat → Block) : Disk :=
  fun x => if x ∈ lh then cache x else d0 x

/-- The header is clear and the home blocks are those of `T`. -/
def Clear (start : Nat) (T d : Disk) : Prop := d start 0 = 0 ∧ SameHome start d T

/-- The header names `lh`, the log blocks hold its cached contents, and the home blocks it
does not name are as in `d0`. -/
def Committed (start : Nat) (d0 : Disk) (lh : List Nat) (cache : Nat → Block) (d : Disk) :
    Prop :=
  readHead start d = lh ∧ (∀ i (hi : i < lh.length), d (start + i + 1) = cache lh[i]) ∧
    ∀ x, NonLog start x → x ∉ lh → d x = d0 x

/-- Past the commit point: committed, or installed with the header clear again. -/
def AfterCommit (start : Nat) (d0 : Disk) (lh : List Nat) (cache : Nat → Block) (d : Disk) :
    Prop :=
  Committed start d0 lh cache d ∨ Clear start (postTrans d0 lh cache) d

@[simp]
theorem postTrans_nil (d0 : Disk) (cache : Nat → Block) : postTrans d0 [] cache = d0 := rfl

/-- Clearing the header keeps the home blocks and makes `n` zero. -/
theorem clear_writeHead_nil {start : Nat} {T d : Disk} (h : SameHome start d T) :
    Clear start T ((writeHead start []).run d) := by
  refine ⟨by simp [writeHead, Cmd.run], fun x hx => ?_⟩
  simp only [writeHead, Cmd.run]
  rw [Function.update_of_ne hx.ne_start]
  exact h x hx

/-- A write to a log block past the header keeps a clear disk clear. -/
theorem Clear.update_log {start : Nat} {T d : Disk} (h : Clear start T d) {i : Nat}
    (hi : i < LOGBLOCKS) (v : Block) : Clear start T (Function.update d (start + i + 1) v) := by
  refine ⟨?_, fun x hx => ?_⟩
  · rw [Function.update_of_ne (by omega)]
    exact h.1
  · rw [Function.update_of_ne (hx.ne_log hi)]
    exact h.2 x hx

section Transaction

variable {start : Nat} {d0 : Disk} {lh : List Nat} {cache : Nat → Block}

/-- A write to one of the transaction's home blocks keeps it committed. -/
theorem Committed.update_home (hhome : ∀ b ∈ lh, NonLog start b) (hlen : lh.length ≤ LOGBLOCKS)
    (h : Committed start d0 lh cache d) {b : Nat} (hb : b ∈ lh) (v : Block) :
    Committed start d0 lh cache (Function.update d b v) := by
  obtain ⟨hhead, hlog, hrest⟩ := h
  have hnl := hhome b hb
  refine ⟨?_, fun i hi => ?_, fun x hx hxl => ?_⟩
  · rw [readHead_update_of_ne hnl.ne_start, hhead]
  · rw [Function.update_of_ne (hnl.ne_log (by omega)).symm]
    exact hlog i hi
  · rw [Function.update_of_ne (fun e => hxl (by rw [e]; exact hb))]
    exact hrest x hx hxl

/-- On a committed disk, recovery runs the tail of `commit`: install, then clear. -/
theorem recoverFromLog_of_committed (h : Committed start d0 lh cache d) :
    recoverFromLog start d = installTrans start lh ++ [writeHead start []] := by
  rw [recoverFromLog, h.1]

/-- `write_log` writes only log blocks past the header, so it keeps a clear disk clear at
every crash point. -/
theorem writeLog_clear (hlen : lh.length ≤ LOGBLOCKS) {T d : Disk} (h : Clear start T d) :
    (∀ k, Clear start T (crashAt (writeLog start cache lh) k d)) ∧
      Clear start T (exec (writeLog start cache lh) d) := by
  apply crashAt_of_cmd _ h
  intro c hc m hm
  obtain ⟨i, hi, he⟩ := writeLogLoop_target hc m
  have hrun : c.run m = Function.update m (start + i + 1) (c m).2 := by
    rw [Cmd.run, he, Nat.zero_add]
  rw [hrun]
  exact hm.update_log (by omega) _

/-- Recovery on a clear disk only clears the header again, wherever it is cut short. -/
theorem recover_clear {T d : Disk} (h : Clear start T d) :
    (∀ k, Clear start T (crashAt (recoverFromLog start d) k d)) ∧
      Clear start T (exec (recoverFromLog start d) d) := by
  have hcmds : recoverFromLog start d = [writeHead start []] := by
    rw [recoverFromLog, readHead_of_clear h.1]
    rfl
  rw [hcmds]
  apply crashAt_of_cmd _ h
  intro c hc m hm
  rw [List.mem_singleton.mp hc]
  exact clear_writeHead_nil hm.2

/-- Any number of interrupted recoveries keep a clear disk clear. -/
theorem clear_of_recoverCrash {T d d' : Disk}
    (hrun : Relation.ReflTransGen (RecoverCrash start) d d') (h : Clear start T d) :
    Clear start T d' := by
  induction hrun with
  | refl => exact h
  | tail _ hstep ih =>
    obtain ⟨k, rfl⟩ := hstep
    exact (recover_clear ih).1 k

section Home

variable (hhome : ∀ b ∈ lh, NonLog start b) (hlen : lh.length ≤ LOGBLOCKS)
include hhome hlen

/-- Installing a committed transaction: at every crash point the disk is still committed,
and at the end every home block is as in `postTrans`. -/
theorem install_committed (h : Committed start d0 lh cache d) :
    (∀ k, Committed start d0 lh cache (crashAt (installTrans start lh) k d)) ∧
      SameHome start (exec (installTrans start lh) d) (postTrans d0 lh cache) ∧
      Committed start d0 lh cache (exec (installTrans start lh) d) := by
  obtain ⟨hk, hend⟩ := crashAt_of_cmd (Q := Committed start d0 lh cache)
    (fun c hc m hm => hm.update_home hhome hlen (installTransLoop_target hc m) _) h
  refine ⟨hk, fun x hx => ?_, hend⟩
  have hlog : ∀ i (hi : i < lh.length), d (start + (0 + i) + 1) = cache lh[i] := by
    intro i hi
    rw [Nat.zero_add]
    exact h.2.1 i hi
  rw [installTrans, exec_installTransLoop hhome (by omega) hlog, postTrans]
  split_ifs with hxl
  · rfl
  · exact h.2.2 x hx hxl

/-- Recovery on a committed disk: committed until the header is cleared, installed after. -/
theorem recover_committed (h : Committed start d0 lh cache d) :
    (∀ k, AfterCommit start d0 lh cache (crashAt (recoverFromLog start d) k d)) ∧
      Clear start (postTrans d0 lh cache) (exec (recoverFromLog start d) d) := by
  obtain ⟨hk, hhomeEnd, hend⟩ := install_committed hhome hlen h
  rw [recoverFromLog_of_committed h]
  refine ⟨crashAt_append_of (fun k => .inl (hk k)) (fun k => ?_), ?_⟩
  · rw [crashAt_singleton]
    split_ifs
    · exact .inl hend
    · exact .inr (clear_writeHead_nil hhomeEnd)
  · rw [exec_append]
    exact clear_writeHead_nil hhomeEnd

/-- Recovery keeps a disk past the commit point there, and completes it. -/
theorem recover_afterCommit (h : AfterCommit start d0 lh cache d) :
    (∀ k, AfterCommit start d0 lh cache (crashAt (recoverFromLog start d) k d)) ∧
      Clear start (postTrans d0 lh cache) (exec (recoverFromLog start d) d) := by
  rcases h with h | h
  · exact recover_committed hhome hlen h
  · obtain ⟨hk, hend⟩ := recover_clear h
    exact ⟨fun k => .inr (hk k), hend⟩

/-- Every crash point of `commit` on a clear disk: up to the last `write_log` write the disk is
clear with the old home blocks; after it, it is past the commit point. -/
theorem commit_crash (hclean : d0 start 0 = 0) (k : Nat) :
    (k ≤ lh.length → Clear start d0 (crashAt (commit start cache lh) k d0)) ∧
      (lh.length < k → AfterCommit start d0 lh cache (crashAt (commit start cache lh) k d0)) := by
  have h0 : Clear start d0 d0 := ⟨hclean, fun _ _ => rfl⟩
  unfold commit
  split_ifs with hne
  · obtain ⟨hlogk, hlogEnd⟩ := @writeLog_clear start lh cache hlen d0 d0 h0
    -- the header write is the commit point
    have hcommitted : Committed start d0 lh cache
        ((writeHead start lh).run (exec (writeLog start cache lh) d0)) := by
      refine ⟨by simp [writeHead, Cmd.run], fun i hi => ?_, fun x hx hxl => ?_⟩
      · simp only [writeHead, Cmd.run]
        have hw := @exec_writeLogLoop start 0 cache lh i hi d0
        rw [Nat.zero_add] at hw
        rw [Function.update_of_ne (by omega), writeLog, hw]
      · simp only [writeHead, Cmd.run]
        rw [Function.update_of_ne hx.ne_start]
        exact hlogEnd.2 x hx
    have hlenLog : (writeLog start cache lh).length = lh.length := length_writeLogLoop _ _ _ _
    rw [List.append_assoc, List.append_assoc, crashAt_append, hlenLog]
    refine ⟨fun hk => by rw [if_pos hk]; exact hlogk k, fun hk => ?_⟩
    rw [if_neg (by omega), show k - lh.length = (k - lh.length - 1) + 1 by omega,
      List.singleton_append, crashAt_cons_succ, ← recoverFromLog_of_committed hcommitted]
    exact (recover_committed hhome hlen hcommitted).1 _
  · have hnil : lh = [] := List.eq_nil_of_length_eq_zero (by omega)
    subst hnil
    exact ⟨fun _ => by simpa using h0, fun _ => .inr (by simpa using h0)⟩

/-- Any number of interrupted recoveries keep a disk past the commit point there. -/
theorem afterCommit_of_recoverCrash {d d' : Disk}
    (hrun : Relation.ReflTransGen (RecoverCrash start) d d')
    (h : AfterCommit start d0 lh cache d) : AfterCommit start d0 lh cache d' := by
  induction hrun with
  | refl => exact h
  | tail _ hstep ih =>
    obtain ⟨k, rfl⟩ := hstep
    exact (recover_afterCommit hhome hlen ih).1 k

/-- The header write is the commit point: after a crash inside `commit`, any number of
interrupted recoveries and one complete recovery, the home blocks are the old ones exactly
when the crash came before the header reached the disk, and the log is clear. -/
theorem recovered_commit_point (hclean : d0 start 0 = 0) (k : Nat) {d : Disk}
    (hrun : Relation.ReflTransGen (RecoverCrash start) (crashAt (commit start cache lh) k d0) d) :
    Clear start (if k ≤ lh.length then d0 else postTrans d0 lh cache)
      (exec (recoverFromLog start d) d) := by
  have hcrash := @commit_crash start d0 lh cache hhome hlen hclean k
  split_ifs with hk
  · exact (recover_clear (clear_of_recoverCrash hrun (hcrash.1 hk))).2
  · have hafter := afterCommit_of_recoverCrash hhome hlen hrun (hcrash.2 (by omega))
    exact (recover_afterCommit hhome hlen hafter).2

end Home

end Transaction

/-- A crash after the first `k` writes of `commit`, any number of interrupted recoveries and one
complete recovery leave the home blocks all old or all new, never a mixture: old when the crash
came at or before the write of the header (`k ≤ lh.length`), new after it; and the log is
clear. -/
theorem commit_crash_atomic (start : Nat) (cache : Nat → Block) (lh : List Nat) (d0 : Disk)
    (hhome : ∀ b ∈ lh, NonLog start b) (hlen : lh.length ≤ LOGBLOCKS) (hclean : d0 start 0 = 0)
    (k : Nat) (d : Disk)
    (hrun : Relation.ReflTransGen (RecoverCrash start) (crashAt (commit start cache lh) k d0) d) :
    (SameHome start (exec (recoverFromLog start d) d) d0 ∨
        SameHome start (exec (recoverFromLog start d) d) (postTrans d0 lh cache)) ∧
      (k ≤ lh.length → SameHome start (exec (recoverFromLog start d) d) d0) ∧
      (lh.length < k → SameHome start (exec (recoverFromLog start d) d) (postTrans d0 lh cache)) ∧
      exec (recoverFromLog start d) d start 0 = 0 := by
  have h := recovered_commit_point hhome hlen hclean k hrun
  by_cases hk : k ≤ lh.length
  · rw [if_pos hk] at h
    exact ⟨.inl h.2, fun _ => h.2, fun hk' => absurd hk (by omega), h.1⟩
  · rw [if_neg hk] at h
    exact ⟨.inr h.2, fun hk' => absurd hk' hk, fun _ => h.2, h.1⟩

/-- A one-block transaction at the `mkfs` log start, cut after the header write, then one
recovery cut after its first write. -/
theorem commit_crash_atomic_after_header :
    let d1 := crashAt (commit 2 (fun _ _ => 7) [100]) 2 (fun _ _ => 0)
    let d := crashAt (recoverFromLog 2 d1) 1 d1
    (∀ b ∈ [100], NonLog 2 b) ∧ [100].length ≤ LOGBLOCKS ∧ (fun _ _ => 0 : Disk) 2 0 = 0 ∧
      Relation.ReflTransGen (RecoverCrash 2) d1 d ∧
      ((SameHome 2 (exec (recoverFromLog 2 d) d) (fun _ _ => 0) ∨
          SameHome 2 (exec (recoverFromLog 2 d) d) (postTrans (fun _ _ => 0) [100] (fun _ _ => 7))) ∧
        (2 ≤ [100].length → SameHome 2 (exec (recoverFromLog 2 d) d) (fun _ _ => 0)) ∧
        ([100].length < 2 →
          SameHome 2 (exec (recoverFromLog 2 d) d) (postTrans (fun _ _ => 0) [100] (fun _ _ => 7))) ∧
        exec (recoverFromLog 2 d) d 2 0 = 0) := by
  intro d1 d
  exact ⟨by decide, by decide, rfl, .single ⟨1, rfl⟩,
    commit_crash_atomic 2 (fun _ _ => 7) [100] (fun _ _ => 0) (by decide) (by decide) rfl 2 d
      (.single ⟨1, rfl⟩)⟩

end Xv6
