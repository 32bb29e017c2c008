import Xv6.Console
import Xv6.Lib.Run

/-!
# The console input ring

The indices keep `0 ≤ w - r ≤ e - r ≤ INPUT_BUF_SIZE` in 32-bit arithmetic (`Cons.Inv`) under
every input character and every section of `consoleread`. An input character is stored only
at `e` while `e - r < INPUT_BUF_SIZE`, so the slots of `[r, e)` keep their characters; erasing
moves `e` back towards `w` and no further. Reads take the committed characters `[r, w)` from
the front (`Cons.pending`): each byte copied out is the next committed one, and a control-D
is taken without being copied, or left in place when it is not the first character of the
read.

One path loses a character: when `either_copyout` fails, `consoleread` has already advanced
`r`, so the committed character is gone from the ring without reaching the reader
(`consoleread_drops_byte`).
-/

namespace Xv6

open Ring

/-- The indices of the ring: `0 ≤ w - r ≤ e - r ≤ INPUT_BUF_SIZE` in 32-bit arithmetic. -/
structure Cons.Inv (s : Cons) : Prop where
  w_le_e : dist s.w s.r ≤ dist s.e s.r
  e_le : dist s.e s.r ≤ INPUT_BUF_SIZE

/-- The committed characters not read yet, `[r, w)`. -/
def Cons.pending (s : Cons) : List UInt8 := read s.buf s.r (dist s.w s.r)

/-- The line being edited, `[w, e)`. -/
def Cons.line (s : Cons) : List UInt8 := read s.buf s.w (dist s.e s.w)

theorem INPUT_BUF_SIZE_dvd : INPUT_BUF_SIZE ∣ 2 ^ 32 := ⟨2 ^ 25, by decide⟩

theorem Cons.zero_inv : Cons.zero.Inv := ⟨by simp [Cons.zero], by simp [Cons.zero, INPUT_BUF_SIZE]⟩

/-- With `w` between `r` and `e`, the distance from `r` to `e` goes through `w`. -/
theorem Cons.Inv.e_split {s : Cons} (h : s.Inv) : dist s.e s.r = dist s.e s.w + dist s.w s.r :=
  dist_split h.w_le_e

/-! ## Erasing -/

/-- `e` moved back towards `w`, and nothing else changed. -/
def Cons.Erased (s s' : Cons) : Prop :=
  s'.buf = s.buf ∧ s'.r = s.r ∧ s'.w = s.w ∧ dist s'.e s.w ≤ dist s.e s.w

theorem Cons.Erased.refl (s : Cons) : s.Erased s := ⟨rfl, rfl, rfl, le_rfl⟩

theorem Cons.Erased.trans {s₁ s₂ s₃ : Cons} (h₁ : s₁.Erased s₂) (h₂ : s₂.Erased s₃) :
    s₁.Erased s₃ := by
  obtain ⟨hb₁, hr₁, hw₁, he₁⟩ := h₁
  obtain ⟨hb₂, hr₂, hw₂, he₂⟩ := h₂
  refine ⟨hb₂.trans hb₁, hr₂.trans hr₁, hw₂.trans hw₁, ?_⟩
  rw [hw₁] at he₂
  exact le_trans he₂ he₁

/-- One backspace. -/
theorem Cons.erased_back (s : Cons) (h : s.e ≠ s.w) : s.Erased { s with e := s.e - 1 } := by
  refine ⟨rfl, rfl, rfl, ?_⟩
  have := dist_sub_one_left h
  show dist (s.e - 1) s.w ≤ dist s.e s.w
  omega

theorem killLine_erased (k : Nat) (s : Cons) : s.Erased (killLine k s) := by
  induction k generalizing s with
  | zero => exact Cons.Erased.refl s
  | succ k ih =>
    rw [killLine]
    split_ifs with h
    · exact (s.erased_back h.1).trans (ih _)
    · exact Cons.Erased.refl s

/-- Erasing keeps the invariant and the committed characters. -/
theorem Cons.Erased.inv {s s' : Cons} (h : s.Erased s') (hi : s.Inv) :
    s'.Inv ∧ s'.pending = s.pending := by
  obtain ⟨hb, hr, hw, he⟩ := h
  have hsplit := hi.e_split
  have he' : dist s'.e s.r = dist s'.e s.w + dist s.w s.r := by
    apply dist_add_of_lt
    have := hi.e_le
    unfold INPUT_BUF_SIZE at this
    omega
  refine ⟨⟨?_, ?_⟩, ?_⟩
  · rw [hr, hw, he']
    omega
  · rw [hr, he']
    have := hi.e_le
    omega
  · simp only [Cons.pending, hb, hr, hw]

/-! ## Storing a character -/

/-- `cons.buf[cons.e++ % INPUT_BUF_SIZE] = c`. -/
def Cons.put (s : Cons) (c : UInt8) : Cons :=
  { s with buf := Function.update s.buf (slot INPUT_BUF_SIZE s.e) c, e := s.e + 1 }

/-- `cons.w = cons.e`. -/
def Cons.commit (s : Cons) : Cons := { s with w := s.e }

theorem Cons.put_inv {s : Cons} (hi : s.Inv) (hroom : dist s.e s.r < INPUT_BUF_SIZE) (c : UInt8) :
    (s.put c).Inv ∧ (s.put c).pending = s.pending ∧ (s.put c).line = s.line ++ [c] ∧
      dist (s.put c).e s.r = dist s.e s.r + 1 := by
  have he : dist (s.e + 1) s.r = dist s.e s.r + 1 := by
    apply dist_add_one_left
    unfold INPUT_BUF_SIZE at hroom
    omega
  have hsplit := hi.e_split
  refine ⟨⟨?_, ?_⟩, ?_, ?_, he⟩
  · show dist s.w s.r ≤ dist (s.e + 1) s.r
    have := hi.w_le_e
    omega
  · show dist (s.e + 1) s.r ≤ INPUT_BUF_SIZE
    omega
  · exact read_update INPUT_BUF_SIZE_dvd s.buf hi.w_le_e hroom c
  · -- the line is read from `w`, which lies between `r` and `e`
    have hw : dist s.e s.w < INPUT_BUF_SIZE := by omega
    have hew : dist (s.e + 1) s.w = dist s.e s.w + 1 := by
      apply dist_add_one_left
      unfold INPUT_BUF_SIZE at hw
      omega
    simp only [Cons.line, Cons.put, hew]
    exact read_update_snoc INPUT_BUF_SIZE_dvd s.buf hw c

theorem Cons.commit_inv {s : Cons} (hi : s.Inv) :
    s.commit.Inv ∧ s.commit.pending = s.pending ++ s.line := by
  refine ⟨⟨le_rfl, hi.e_le⟩, ?_⟩
  simp only [Cons.commit, Cons.pending, Cons.line]
  rw [hi.e_split, Nat.add_comm, read_add, after_dist]

/-! ## `consoleintr` -/

/-- What `consoleintr` can do: nothing, erase, or store a character and perhaps commit the
line. -/
theorem consoleintr_cases (c : UInt8) (s : Cons) :
    s.Erased (consoleintr c s) ∨
      ∃ c', c' ≠ 0 ∧ dist s.e s.r < INPUT_BUF_SIZE ∧
        (consoleintr c s = s.put c' ∨ consoleintr c s = (s.put c').commit) := by
  unfold consoleintr
  by_cases hP : c = C 'P'
  · rw [if_pos hP]
    exact .inl (Cons.Erased.refl s)
  rw [if_neg hP]
  by_cases hU : c = C 'U'
  · rw [if_pos hU]
    exact .inl (killLine_erased _ s)
  rw [if_neg hU]
  by_cases hH : c = C 'H' ∨ c = 0x7f
  · rw [if_pos hH]
    split_ifs with hne
    · exact .inl (s.erased_back hne)
    · exact .inl (Cons.Erased.refl s)
  rw [if_neg hH]
  by_cases hst : c ≠ 0 ∧ dist s.e s.r < INPUT_BUF_SIZE
  · rw [if_pos hst]
    -- the character stored: `\r` becomes `\n`
    generalize hc' : (if c = chr '\r' then chr '\n' else c) = c'
    have hc'0 : c' ≠ 0 := by
      rw [← hc']
      split_ifs
      · decide
      · exact hst.1
    refine .inr ⟨c', hc'0, hst.2, ?_⟩
    dsimp only
    split_ifs
    · exact .inr rfl
    · exact .inl rfl
  · rw [if_neg hst]
    exact .inl (Cons.Erased.refl s)

/-- `consoleintr` keeps the invariant, stores only past `e`, so that the characters of
`[r, e)` stay, and the committed characters only grow. -/
theorem consoleintr_inv {s : Cons} (hi : s.Inv) (c : UInt8) :
    (consoleintr c s).Inv ∧
      read (consoleintr c s).buf s.r (dist s.e s.r) = read s.buf s.r (dist s.e s.r) ∧
      (consoleintr c s).r = s.r ∧
      (consoleintr c s).pending = s.pending ++
        read (consoleintr c s).buf s.w (dist (consoleintr c s).w s.w) := by
  rcases consoleintr_cases c s with hE | ⟨c', -, hroom, hput | hcom⟩
  · obtain ⟨hinv, hpend⟩ := hE.inv hi
    obtain ⟨hb, hr, hw, -⟩ := hE
    refine ⟨hinv, by rw [hb], hr, ?_⟩
    rw [hpend, hw, dist_self]
    simp
  · obtain ⟨hinv, hpend, -, -⟩ := Cons.put_inv hi hroom c'
    rw [hput]
    refine ⟨hinv, read_update INPUT_BUF_SIZE_dvd s.buf le_rfl hroom c', rfl, ?_⟩
    rw [hpend]
    show s.pending = s.pending ++ read _ s.w (dist s.w s.w)
    simp
  · obtain ⟨hinv, hpend, hline, -⟩ := Cons.put_inv hi hroom c'
    obtain ⟨hcinv, hcpend⟩ := Cons.commit_inv hinv
    rw [hcom]
    refine ⟨hcinv, read_update INPUT_BUF_SIZE_dvd s.buf le_rfl hroom c', rfl, ?_⟩
    rw [hcpend, hpend, hline]
    congr 1
    show s.line ++ [c'] = read (s.put c').buf s.w (dist (s.put c').e s.w)
    rw [← hline]
    rfl

/-! ## `consoleread` -/

/-- `cons.r++`. -/
def Cons.next (s : Cons) : Cons := { s with r := s.r + 1 }

/-- The next committed character leaves the front of `[r, w)`. -/
theorem Cons.next_inv {s : Cons} (hi : s.Inv) (hrw : s.r ≠ s.w) :
    s.next.Inv ∧ s.pending = s.at s.r :: s.next.pending := by
  have hw := dist_add_one_right (Ne.symm hrw)
  have hpos := dist_pos_of_ne (Ne.symm hrw)
  have her : s.e ≠ s.r := fun h => by
    have := hi.w_le_e
    rw [h, dist_self] at this
    omega
  have he := dist_add_one_right her
  refine ⟨⟨?_, ?_⟩, ?_⟩
  · show dist s.w (s.r + 1) ≤ dist s.e (s.r + 1)
    have := hi.w_le_e
    omega
  · show dist s.e (s.r + 1) ≤ INPUT_BUF_SIZE
    have := hi.e_le
    omega
  · rw [Cons.pending, ← hw]
    rfl

/-- The bytes a reader sees of a list of committed characters: all but control-D. -/
def visible (l : List UInt8) : List UInt8 := l.filter fun c => c != C 'D'

/-- A section of `consoleread` moves only `r`, and keeps the invariant. -/
theorem consolereadLoop_inv {s : Cons} (hi : s.Inv) (killed : Bool) (copyOk : Nat → Bool)
    (rd : Reader) :
    (consolereadLoop killed copyOk s rd).cons.Inv ∧
      (consolereadLoop killed copyOk s rd).cons.buf = s.buf ∧
      (consolereadLoop killed copyOk s rd).cons.w = s.w ∧
      (consolereadLoop killed copyOk s rd).cons.e = s.e := by
  fun_induction consolereadLoop killed copyOk s rd with
  | case1 => exact ⟨hi, rfl, rfl, rfl⟩
  | case2 => exact ⟨hi, rfl, rfl, rfl⟩
  | case3 => exact ⟨hi, rfl, rfl, rfl⟩
  | case4 s rd _ hrw =>
    -- `cons.r--` undoes `cons.r++`
    refine ⟨?_, rfl, rfl, rfl⟩
    show ({ s with r := s.r + 1 - 1 } : Cons).Inv
    rw [add_one_sub_one]
    exact hi
  | case5 s rd _ hrw => exact ⟨(Cons.next_inv hi hrw).1, rfl, rfl, rfl⟩
  | case6 s rd _ hrw => exact ⟨(Cons.next_inv hi hrw).1, rfl, rfl, rfl⟩
  | case7 s rd _ hrw => exact ⟨(Cons.next_inv hi hrw).1, rfl, rfl, rfl⟩
  | case8 s rd _ hrw _ _ _ _ _ _ _ ih => exact ih (Cons.next_inv hi hrw).1

theorem visible_cons (c : UInt8) (l : List UInt8) :
    visible (c :: l) = if c = C 'D' then visible l else c :: visible l := by
  by_cases h : c = C 'D' <;> simp [visible, h]

theorem visible_append (l l' : List UInt8) : visible (l ++ l') = visible l ++ visible l' := by
  unfold visible
  exact List.filter_append _ _

/-- When every copy succeeds, a section of `consoleread` copies out the committed characters
from the front, control-D apart: what it copies and what is left make what there was. -/
theorem consolereadLoop_delivers {s : Cons} (hi : s.Inv) (killed : Bool) {copyOk : Nat → Bool}
    (hok : ∀ a, copyOk a = true) (rd : Reader) :
    (consolereadLoop killed copyOk s rd).out ++
        visible (consolereadLoop killed copyOk s rd).cons.pending = visible s.pending := by
  fun_induction consolereadLoop killed copyOk s rd with
  | case1 => rfl
  | case2 => rfl
  | case3 => rfl
  | case4 s rd _ hrw =>
    show visible ({ s with r := s.r + 1 - 1 } : Cons).pending = visible s.pending
    rw [add_one_sub_one]
  | case5 s rd _ hrw _ _ hD =>
    -- the control-D is taken and not copied
    rw [(Cons.next_inv hi hrw).2, visible_cons, if_pos hD]
    rfl
  | case6 s rd _ _ _ _ _ hfail => simp [hok] at hfail
  | case7 s rd _ hrw _ _ hD _ _ _ =>
    rw [(Cons.next_inv hi hrw).2, visible_cons, if_neg hD]
    rfl
  | case8 s rd _ hrw _ _ hD _ _ _ _ ih =>
    rw [(Cons.next_inv hi hrw).2, visible_cons, if_neg hD]
    exact congrArg (s.at s.r :: ·) (ih (Cons.next_inv hi hrw).1)

/-- A failed copy: the next committed character leaves the ring, and nothing is copied. -/
theorem consolereadLoop_copy_fail {s : Cons} {rd : Reader} (hn : 0 < rd.n) (hrw : s.r ≠ s.w)
    (hc : s.at s.r ≠ C 'D') (killed : Bool) {copyOk : Nat → Bool} (hfail : copyOk rd.dst = false) :
    consolereadLoop killed copyOk s rd = ⟨s.next, rd, [], .ret (rd.target - rd.n)⟩ := by
  rw [consolereadLoop]
  simp [Int.not_le.mpr hn, hrw, hc, hfail, Cons.next]

/-- A newline copied out ends the read. -/
theorem consolereadLoop_newline {s : Cons} {rd : Reader} (hn : 0 < rd.n) (hrw : s.r ≠ s.w)
    (hc : s.at s.r = chr '\n') (killed : Bool) {copyOk : Nat → Bool} (hok : copyOk rd.dst = true) :
    consolereadLoop killed copyOk s rd =
      ⟨s.next, { rd with dst := rd.dst + 1, n := rd.n - 1 }, [chr '\n'],
        .ret (rd.target - (rd.n - 1))⟩ := by
  have hD : chr '\n' ≠ C 'D' := by decide
  rw [consolereadLoop]
  simp [Int.not_le.mpr hn, hrw, hc, hD, hok, Cons.next]

/-! ## The console with its readers -/

/-- One event, as a transition. -/
def ConsStep (s : ConsSys) (ev : ConsEvent) (t : ConsSys) : Prop := s.step ev = some t

/-- The ring's invariant, and every byte copied out followed by the committed characters not
read yet make every character committed, control-D apart. -/
structure ConsSys.Inv (s : ConsSys) : Prop where
  ring : s.cons.Inv
  delivered : s.delivered ++ visible s.cons.pending = visible s.committed

theorem ConsSys.zero_inv : ConsSys.zero.Inv := ⟨Cons.zero_inv, rfl⟩

/-- Every copy of the event succeeds. -/
def ConsEvent.CopiesOk : ConsEvent → Prop
  | .intr _ => True
  | .read _ _ _ _ copyOk => ∀ a, copyOk a = true
  | .resume _ _ copyOk => ∀ a, copyOk a = true

theorem ConsSys.afterRead_inv {s : ConsSys} (h : s.Inv) (p : Fin NPROC) (killed : Bool)
    {copyOk : Nat → Bool} (hok : ∀ a, copyOk a = true) (rd : Reader) :
    (s.afterRead p (consolereadLoop killed copyOk s.cons rd)).Inv := by
  refine ⟨(consolereadLoop_inv h.ring killed copyOk rd).1, ?_⟩
  show s.delivered ++ (consolereadLoop killed copyOk s.cons rd).out ++
    visible (consolereadLoop killed copyOk s.cons rd).cons.pending = visible s.committed
  rw [List.append_assoc, consolereadLoop_delivers h.ring killed hok rd, h.delivered]

/-- Each event whose copies succeed keeps the invariant. -/
theorem ConsSys.Inv.step {s t : ConsSys} {ev : ConsEvent} (h : s.Inv) (hok : ev.CopiesOk)
    (hs : ConsStep s ev t) : t.Inv := by
  cases ev with
  | intr c =>
    simp only [ConsStep, ConsSys.step, Option.some.injEq] at hs
    subst hs
    obtain ⟨hinv, -, -, hpend⟩ := consoleintr_inv h.ring c
    refine ⟨hinv, ?_⟩
    show s.delivered ++ visible (consoleintr c s.cons).pending = visible (s.committed ++ _)
    rw [hpend, visible_append, visible_append, ← List.append_assoc, h.delivered]
  | read p dst n killed copyOk =>
    simp only [ConsStep, ConsSys.step] at hs
    split at hs
    · cases hs
    · cases hs
      exact ConsSys.afterRead_inv h p killed hok _
  | resume p killed copyOk =>
    simp only [ConsStep, ConsSys.step] at hs
    split at hs
    · cases hs
    · cases hs
      exact ConsSys.afterRead_inv h p killed hok _

/-- Over every run from boot whose copies succeed, the bytes copied out are the committed
characters in the order they came, control-D apart, each once, and those not copied yet are
the ones still committed in the ring. -/
theorem ConsSys.Inv.run {s : ConsSys} {evs : List ConsEvent} (hok : ∀ ev ∈ evs, ev.CopiesOk)
    (hrun : Trace.Run ConsStep ConsSys.zero evs s) : s.Inv := by
  -- the invariant, for the events seen so far
  have key : ∀ t l, Trace.Run ConsStep ConsSys.zero l t → (∀ ev ∈ l, ev.CopiesOk) → t.Inv := by
    intro t l hr
    induction hr with
    | nil => exact fun _ => ConsSys.zero_inv
    | snoc _ hs ih =>
      intro hl
      exact (ih fun ev hev => hl ev (List.mem_append_left _ hev)).step
        (hl _ (List.mem_append_right _ (List.mem_singleton_self _))) hs
  exact key s evs hrun hok

/-! ## A failed copy loses a committed character -/

theorem ConsSys.step_read {s : ConsSys} {p : Fin NPROC} (h : s.readers p = none) (dst : Nat)
    (n : Int) (killed : Bool) (copyOk : Nat → Bool) :
    ConsStep s (.read p dst n killed copyOk)
      (s.afterRead p (consoleread killed copyOk dst n s.cons)) := by
  simp [ConsStep, ConsSys.step, h]

/-- A read whose first copy fails takes the next committed character and copies nothing. -/
theorem ConsSys.read_copy_fail {s : ConsSys} {p : Fin NPROC} (hidle : s.readers p = none)
    {dst : Nat} {n : Int} (hn : 0 < n) (hrw : s.cons.r ≠ s.cons.w)
    (hc : s.cons.at s.cons.r ≠ C 'D') (killed : Bool) {copyOk : Nat → Bool}
    (hfail : copyOk dst = false) :
    ConsStep s (.read p dst n killed copyOk)
      { s with cons := s.cons.next, readers := Function.update s.readers p none } := by
  have h := ConsSys.step_read hidle dst n killed copyOk
  rw [consoleread, consolereadLoop_copy_fail hn hrw hc killed hfail] at h
  simpa [ConsSys.afterRead] using h

/-- A read of a newline copies it out and returns. -/
theorem ConsSys.read_newline {s : ConsSys} {p : Fin NPROC} (hidle : s.readers p = none)
    {dst : Nat} {n : Int} (hn : 0 < n) (hrw : s.cons.r ≠ s.cons.w)
    (hc : s.cons.at s.cons.r = chr '\n') (killed : Bool) {copyOk : Nat → Bool}
    (hok : copyOk dst = true) :
    ConsStep s (.read p dst n killed copyOk)
      { s with
        cons := s.cons.next
        readers := Function.update s.readers p none
        delivered := s.delivered ++ [chr '\n'] } := by
  have h := ConsSys.step_read hidle dst n killed copyOk
  rw [consoleread, consolereadLoop_newline hn hrw hc killed hok] at h
  simpa [ConsSys.afterRead] using h

/-- From every state of the invariant with a committed character other than control-D
waiting, a read whose copy fails loses it: it is never copied out, and no longer in the
ring. -/
theorem ConsSys.read_copy_fail_loses {s : ConsSys} (h : s.Inv) {p : Fin NPROC}
    (hidle : s.readers p = none) {dst : Nat} {n : Int} (hn : 0 < n) (hrw : s.cons.r ≠ s.cons.w)
    (hc : s.cons.at s.cons.r ≠ C 'D') (killed : Bool) {copyOk : Nat → Bool}
    (hfail : copyOk dst = false) :
    let t : ConsSys := { s with cons := s.cons.next, readers := Function.update s.readers p none }
    ConsStep s (.read p dst n killed copyOk) t ∧
      t.delivered ++ visible t.cons.pending ≠ visible t.committed := by
  refine ⟨ConsSys.read_copy_fail hidle hn hrw hc killed hfail, fun heq => ?_⟩
  have hd := h.delivered
  rw [(Cons.next_inv h.ring hrw).2, visible_cons, if_neg hc] at hd
  -- the same committed characters, one fewer delivered or waiting
  have hlen := congrArg List.length (hd.trans heq.symm)
  simp at hlen

/-- Typing `a` and a newline commits both; a read into a bad user address takes `a` without
copying it; the next read gets only the newline, and the ring is empty. -/
theorem console_read_fault_drops_committed_byte :
    ∃ s, Trace.Run ConsStep ConsSys.zero
        [.intr (chr 'a'), .intr (chr '\n'), .read ⟨1, by decide⟩ 4096 10 false (fun _ => false),
          .read ⟨1, by decide⟩ 4096 10 false (fun _ => true)] s ∧
      s.committed = [chr 'a', chr '\n'] ∧ s.delivered = [chr '\n'] ∧ s.cons.pending = [] ∧
      s.readers ⟨1, by decide⟩ = none := by
  -- after the two keys the invariant holds, and the failing read is the loss from it
  have h2 : Trace.Run ConsStep ConsSys.zero [.intr (chr 'a'), .intr (chr '\n')]
      ((Trace.replay ConsSys.step ConsSys.zero [.intr (chr 'a'), .intr (chr '\n')]).getD
        ConsSys.zero) :=
    Trace.Run.of_replay rfl
  have hinv := ConsSys.Inv.run (fun ev hev => by simp at hev; rcases hev with rfl | rfl <;> trivial) h2
  have hlose : ConsStep _ (.read ⟨1, by decide⟩ 4096 10 false fun _ => false) _ :=
    (ConsSys.read_copy_fail_loses hinv rfl (by decide) (by decide) (by decide) false rfl).1
  refine ⟨_, h2.append (Trace.Run.cons hlose
      (Trace.Run.single (ConsSys.read_newline (by simp) (by decide) (by decide) (by decide) false
        rfl))), by decide, by decide, by decide, by simp⟩
end Xv6
