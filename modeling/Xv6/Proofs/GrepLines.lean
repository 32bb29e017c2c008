import Mathlib
import Xv6.Lib.Lines
import Xv6.Grep

/-!
# `grep` over a stream read in pieces

What `grep` is to write: the lines of its input that end with a newline and that `match` accepts,
each with its newline (`matching`). For an input without `NUL` whose complete lines are shorter
than `1023` characters it writes exactly that, however `read` cuts the stream (`grep_eq`): the
inner loop writes the complete lines of `buf` and keeps the unfinished one (`scanLines_eq`), and
by `Lines.split_append` the lines found one piece at a time are the lines of the stream.

Past these bounds it does not. A line of `1023` characters fills `buf` before its newline comes;
`read` is then asked for no bytes, returns `0`, and the loop ends without reading the rest of
the stream. A `NUL` stops `strchr` before the newline after it, so that no line after it is
ever looked at.
-/

namespace Xv6.Grep

open Lines

/-- What `grep` is to write for the lines `ls`: those that `match` accepts, each with its
newline. -/
def matching (pattern : List Char) (ls : List (List Char)) : List Char :=
  (ls.filter fun l => «match» pattern l).flatMap (· ++ ['\n'])

section Matching

variable (pattern : List Char)

@[simp] theorem matching_nil : matching pattern [] = [] := rfl

theorem matching_cons (l : List Char) (ls : List (List Char)) :
    matching pattern (l :: ls) =
      (if «match» pattern l then l ++ ['\n'] else []) ++ matching pattern ls := by
  cases h : «match» pattern l <;> simp [matching, h]

theorem matching_append (ls ls' : List (List Char)) :
    matching pattern (ls ++ ls') = matching pattern ls ++ matching pattern ls' := by
  simp [matching, List.filter_append, List.flatMap_append]

end Matching

/-! ## `strchr` -/

theorem strchr_eq_none {s : List Char} {c : Char} (hnul : '\x00' ∉ s)
    (h : Ulib.strchr s c = none) : c ∉ s := by
  induction s with
  | nil => simp
  | cons x s ih =>
    have hx : x ≠ '\x00' := fun hx => hnul (hx ▸ List.mem_cons_self)
    simp only [Ulib.strchr, if_neg hx] at h
    split_ifs at h with hc
    rw [Option.map_eq_none_iff] at h
    have hs := ih (fun h0 => hnul (List.mem_cons_of_mem x h0)) h
    rw [List.mem_cons, not_or]
    exact ⟨fun h' => hc h'.symm, hs⟩

/-- `strchr` stops at the first `c`. -/
theorem strchr_eq_some {s : List Char} {c : Char} {q : Nat} (h : Ulib.strchr s c = some q) :
    s = s.take q ++ c :: s.drop (q + 1) ∧ c ∉ s.take q := by
  induction s generalizing q with
  | nil => cases h
  | cons x s ih =>
    simp only [Ulib.strchr] at h
    split_ifs at h with hx hc
    · cases h
      subst hc
      simp
    · obtain ⟨q', hq', rfl⟩ := Option.map_eq_some_iff.mp h
      obtain ⟨hs, hnot⟩ := ih hq'
      refine ⟨?_, ?_⟩
      · simp only [List.take_succ_cons, List.drop_succ_cons, List.cons_append]
        exact congrArg (x :: ·) hs
      · rw [List.take_succ_cons, List.mem_cons, not_or]
        exact ⟨fun h' => hc h'.symm, hnot⟩

theorem strchr_nul (s : List Char) (c : Char) : Ulib.strchr ('\x00' :: s) c = none := by
  rw [Ulib.strchr, if_pos rfl]

theorem strchr_of_not_mem {s : List Char} {c : Char} (h : c ∉ s) : Ulib.strchr s c = none := by
  cases hs : Ulib.strchr s c with
  | none => rfl
  | some q =>
    have hdec := (strchr_eq_some hs).1
    exact absurd (hdec ▸ List.mem_append_right _ List.mem_cons_self) h

/-! ## The inner loop -/

section Scan

variable (pattern : List Char)

theorem scanLines_of_none {s : List Char} (h : Ulib.strchr s '\n' = none) :
    scanLines pattern s = ([], s) := by
  rw [scanLines]
  split
  · rfl
  · next q hq =>
    rw [h] at hq
    cases hq

theorem scanLines_of_some {s : List Char} {q : Nat} (h : Ulib.strchr s '\n' = some q) :
    scanLines pattern s =
      ((if «match» pattern (s.take q) then s.take q ++ ['\n'] else []) ++
        (scanLines pattern (s.drop (q + 1))).1, (scanLines pattern (s.drop (q + 1))).2) := by
  rw [scanLines]
  split
  · next hn =>
    rw [h] at hn
    cases hn
  · next q' hq =>
    rw [h] at hq
    cases hq
    rfl

/-- On bytes without `NUL`, the inner loop writes the matching complete lines and keeps the
unfinished one. -/
theorem scanLines_eq {s : List Char} (hnul : '\x00' ∉ s) :
    scanLines pattern s = (matching pattern (split '\n' s).1, (split '\n' s).2) := by
  induction s using scanLines.induct pattern with
  | case1 s hnone =>
    rw [scanLines_of_none pattern hnone, split_of_not_mem (strchr_eq_none hnul hnone)]
    rfl
  | case2 s q hq ih =>
    obtain ⟨hdec, hline⟩ := strchr_eq_some hq
    have hsplit : split '\n' s = (s.take q :: (split '\n' (s.drop (q + 1))).1,
        (split '\n' (s.drop (q + 1))).2) :=
      calc split '\n' s = split '\n' (s.take q ++ '\n' :: s.drop (q + 1)) := congrArg _ hdec
        _ = _ := split_append_sep hline _
    rw [scanLines_of_some pattern hq, ih fun h => hnul (List.mem_of_mem_drop h), hsplit,
      matching_cons]

theorem scanLines_of_not_mem {s : List Char} (h : '\n' ∉ s) : scanLines pattern s = ([], s) :=
  scanLines_of_none pattern (strchr_of_not_mem h)

end Scan

/-! ## The outer loop -/

section Read

variable (sz : Nat → Nat) (k m left : Nat)

theorem readCount_eq_zero : readCount sz k m left = 0 ↔ BUFSIZE - 1 ≤ m ∨ left = 0 := by
  simp only [readCount, BUFSIZE]
  omega

theorem readCount_le_room : readCount sz k m left ≤ BUFSIZE - 1 - m := by
  simp only [readCount]
  omega

theorem readCount_le_left : readCount sz k m left ≤ left := by
  simp only [readCount]
  omega

end Read

section Loop

variable (pattern : List Char) (sz : Nat → Nat)

theorem grepLoop_of_zero {k : Nat} {buf input : List Char}
    (h : readCount sz k buf.length input.length = 0) : grepLoop pattern sz k buf input = [] := by
  rw [grepLoop.eq_1, if_pos h]

theorem grepLoop_of_read {k n : Nat} {buf input : List Char}
    (hn : readCount sz k buf.length input.length = n) (hpos : n ≠ 0) :
    grepLoop pattern sz k buf input =
      (scanLines pattern (buf ++ input.take n)).1 ++
        grepLoop pattern sz (k + 1) (scanLines pattern (buf ++ input.take n)).2 (input.drop n) := by
  subst hn
  rw [grepLoop.eq_1, if_neg hpos]

/-- For an input without `NUL` whose complete lines are shorter than `BUFSIZE - 1`, the outer
loop writes the matching lines of what `buf` holds and what is still to come, however `read`
cuts the input. -/
theorem grepLoop_eq {k : Nat} {buf input : List Char} (hbuf : '\n' ∉ buf)
    (hnulb : '\x00' ∉ buf) (hnul : '\x00' ∉ input)
    (hlong : ∀ l ∈ (split '\n' (buf ++ input)).1, l.length < BUFSIZE - 1) :
    grepLoop pattern sz k buf input = matching pattern (split '\n' (buf ++ input)).1 := by
  induction k, buf, input using grepLoop.induct pattern sz with
  | case1 k buf input n hn =>
    rw [grepLoop_of_zero pattern sz hn]
    rcases split_append_of_not_mem hbuf input with h | ⟨l, ls, h⟩
    · rw [h, matching_nil]
    · -- the first line holds `buf`, so `buf` has room left and the input is at its end
      have hl : (buf ++ l).length < BUFSIZE - 1 := hlong _ (h ▸ List.mem_cons_self)
      have hend : input = [] := by
        rw [List.length_append] at hl
        rcases (readCount_eq_zero sz k buf.length input.length).mp hn with hm | hleft
        · omega
        · exact List.eq_nil_of_length_eq_zero hleft
      subst hend
      rw [List.append_nil, split_of_not_mem hbuf] at h
      cases h
  | case2 k buf input n hn r ih =>
    have hin : buf ++ input = (buf ++ input.take n) ++ input.drop n := by
      rw [List.append_assoc, List.take_append_drop]
    have hpre : '\x00' ∉ buf ++ input.take n := by
      rw [List.mem_append, not_or]
      exact ⟨hnulb, fun h => hnul (List.mem_of_mem_take h)⟩
    have hrest : ∀ l ∈ (split '\n' ((split '\n' (buf ++ input.take n)).2 ++ input.drop n)).1,
        l.length < BUFSIZE - 1 := by
      intro l hl
      apply hlong l
      rw [hin, split_append]
      exact List.mem_append_right _ hl
    dsimp only [r] at ih
    rw [scanLines_eq pattern hpre] at ih
    dsimp only at ih
    rw [grepLoop_of_read pattern sz rfl hn, scanLines_eq pattern hpre,
      ih (not_mem_split_snd _) (fun h => hpre ((split_snd_suffix _).subset h))
        (fun h => hnul (List.mem_of_mem_drop h)) hrest,
      hin, split_append (buf ++ input.take n) (input.drop n), matching_append]

/-- While the first `BUFSIZE - 1` characters of what `buf` holds and what is to come have no
newline, the outer loop writes nothing: each `read` only makes the line in `buf` longer, and once
`buf` is full `read` is asked for no bytes. -/
theorem grepLoop_of_long {k : Nat} {buf input : List Char}
    (h : '\n' ∉ (buf ++ input).take (BUFSIZE - 1)) : grepLoop pattern sz k buf input = [] := by
  induction k, buf, input using grepLoop.induct pattern sz with
  | case1 k buf input n hn => exact grepLoop_of_zero pattern sz hn
  | case2 k buf input n hn r ih =>
    have hroom : buf.length + n ≤ BUFSIZE - 1 := by
      have hle : n ≤ BUFSIZE - 1 - buf.length := readCount_le_room sz k buf.length input.length
      have hpos : 0 < n := Nat.pos_of_ne_zero hn
      omega
    have hpre : buf ++ input.take n = (buf ++ input).take (buf.length + n) := by
      rw [List.take_append, List.take_of_length_le (show buf.length ≤ buf.length + n by omega),
        Nat.add_sub_cancel_left]
    have hnl : '\n' ∉ buf ++ input.take n := by
      rw [hpre]
      exact fun hm => h (List.take_subset_take_left _ hroom hm)
    have hin : buf ++ input = (buf ++ input.take n) ++ input.drop n := by
      rw [List.append_assoc, List.take_append_drop]
    dsimp only [r] at ih
    rw [scanLines_of_not_mem pattern hnl, ← hin] at ih
    rw [grepLoop_of_read pattern sz rfl hn, scanLines_of_not_mem pattern hnl, ih h]
    rfl

/-- A `NUL` at the front of what `buf` holds hides every newline after it from `strchr`: the
outer loop writes nothing. -/
theorem grepLoop_of_nul {k : Nat} {buf input : List Char}
    (h : (buf ++ input).head? = some '\x00') : grepLoop pattern sz k buf input = [] := by
  induction k, buf, input using grepLoop.induct pattern sz with
  | case1 k buf input n hn => exact grepLoop_of_zero pattern sz hn
  | case2 k buf input n hn r ih =>
    have hin : buf ++ input = (buf ++ input.take n) ++ input.drop n := by
      rw [List.append_assoc, List.take_append_drop]
    have hne : buf ++ input.take n ≠ [] := by
      have hle : n ≤ input.length := readCount_le_left sz k buf.length input.length
      have hlen : 0 < (input.take n).length := by
        rw [List.length_take]
        omega
      exact List.append_ne_nil_of_right_ne_nil buf (List.ne_nil_of_length_pos hlen)
    have hfront : Ulib.strchr (buf ++ input.take n) '\n' = none := by
      rw [hin, List.head?_append_of_ne_nil _ hne] at h
      cases hb : buf ++ input.take n with
      | nil => exact absurd hb hne
      | cons x rest =>
        rw [hb, List.head?_cons, Option.some_inj] at h
        rw [h, strchr_nul]
    dsimp only [r] at ih
    rw [scanLines_of_none pattern hfront, ← hin] at ih
    rw [grepLoop_of_read pattern sz rfl hn, scanLines_of_none pattern hfront, ih h]
    rfl

end Loop

section Grep

variable (pattern : List Char) (sz : Nat → Nat)

/-- `grep` writes the matching lines of an input without `NUL` whose lines are shorter than
`BUFSIZE - 1`, each once and in order, with its newline, however `read` cuts the input. -/
theorem grep_eq {input : List Char} (hnul : '\x00' ∉ input)
    (hlong : ∀ l ∈ (split '\n' input).1, l.length < BUFSIZE - 1) :
    grep pattern sz input = matching pattern (split '\n' input).1 :=
  grepLoop_eq pattern sz List.not_mem_nil List.not_mem_nil hnul hlong

end Grep

/-- The stream `a`, newline, `b`, newline read one byte at a time: `grep b` writes the line
`b`. -/
theorem grep_eq_bytewise :
    '\x00' ∉ ['a', '\n', 'b', '\n'] ∧
      (∀ l ∈ (split '\n' ['a', '\n', 'b', '\n']).1, l.length < BUFSIZE - 1) ∧
      grep ['b'] (fun _ => 1) ['a', '\n', 'b', '\n'] =
        matching ['b'] (split '\n' ['a', '\n', 'b', '\n']).1 :=
  ⟨by decide, by decide, grep_eq ['b'] (fun _ => 1) (by decide) (by decide)⟩

theorem matchLoop_b_replicate (n : Nat) : matchLoop ['b'] (List.replicate n 'a') = false := by
  induction n with
  | zero => rfl
  | succ n ih =>
    rw [List.replicate_succ, matchLoop, ih]
    rfl

/-- `grep` misses matching lines. After a first line of `BUFSIZE - 1` characters `buf` is full,
`read(fd, buf+m, 0)` returns `0` and the loop ends before the line `b` is read. A `NUL` stops
`strchr` before the newline after it, so that the line `b` after it is never looked at. -/
theorem grep_misses_lines :
    matching ['b'] (split '\n' (List.replicate (BUFSIZE - 1) 'a' ++ ['\n', 'b', '\n'])).1 =
        ['b', '\n'] ∧
      (∀ sz, grep ['b'] sz (List.replicate (BUFSIZE - 1) 'a' ++ ['\n', 'b', '\n']) = []) ∧
    matching ['b'] (split '\n' ['\x00', '\n', 'b', '\n']).1 = ['b', '\n'] ∧
      (∀ sz, grep ['b'] sz ['\x00', '\n', 'b', '\n'] = []) := by
  have hline : '\n' ∉ List.replicate (BUFSIZE - 1) 'a' := by
    rw [List.mem_replicate]
    exact fun h => absurd h.2 (by decide)
  refine ⟨?_, fun sz => ?_, by decide, fun sz => grepLoop_of_nul ['b'] sz rfl⟩
  · rw [split_append_sep hline, matching_cons]
    show (if matchLoop ['b'] (List.replicate (BUFSIZE - 1) 'a') then _ else _) ++ _ = _
    rw [matchLoop_b_replicate]
    rfl
  · apply grepLoop_of_long
    rw [List.nil_append, List.take_left' List.length_replicate]
    exact hline

end Xv6.Grep
