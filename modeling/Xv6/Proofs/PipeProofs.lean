import Mathlib
import Xv6.Lib.Run
import Xv6.Pipe

/-!
# The pipe is a FIFO

The counters `nread` and `nwrite` are the numbers of bytes read and stored, modulo `2^32`
(`Tracks`). Since `PIPESIZE` divides `2^32`, a counter modulo `PIPESIZE` is the true count
modulo `PIPESIZE`, and since the true counts never differ by more than `PIPESIZE`, the
wrapping tests `nwrite == nread + PIPESIZE` and `nread == nwrite` decide "full" and "empty"
exactly. `RingInv` says that the bytes read are a prefix of the bytes stored, and that the ring
holds every stored byte not yet read at its count modulo `PIPESIZE`; every hold of the lock
keeps it, whatever process runs it and however the counters wrap.
-/

namespace Xv6

/-! ## Wrapping counters -/

/-- The `uint` counter `c` stands for the count `k`. -/
def Tracks (c : UInt32) (k : Nat) : Prop := c.toNat = k % 2 ^ 32

theorem Tracks.zero : Tracks 0 0 := rfl

theorem Tracks.succ {c : UInt32} {k : Nat} (h : Tracks c k) : Tracks (c + 1) (k + 1) := by
  unfold Tracks at h ⊢
  rw [UInt32.toNat_add, h]
  simp only [UInt32.toNat_one]
  omega

/-- The ring index `c % PIPESIZE` is the count modulo `PIPESIZE`: `PIPESIZE` divides `2^32`. -/
theorem Tracks.index {c : UInt32} {k : Nat} (h : Tracks c k) :
    (c % UInt32.ofNat PIPESIZE).toNat = k % PIPESIZE := by
  unfold Tracks at h
  rw [UInt32.toNat_mod, h]
  exact Nat.mod_mod_of_dvd k (by decide)

section Tests

variable {nr nw : UInt32} {R W : Nat}

/-- The full test decides `W = R + PIPESIZE`. -/
theorem Tracks.full_iff (hw : Tracks nw W) (hr : Tracks nr R) (hRW : R ≤ W)
    (hle : W ≤ R + PIPESIZE) : (nw == nr + UInt32.ofNat PIPESIZE) = true ↔ W = R + PIPESIZE := by
  unfold Tracks at hw hr
  rw [beq_iff_eq, ← UInt32.toNat_inj, UInt32.toNat_add, hw, hr]
  simp only [PIPESIZE, UInt32.toNat_ofNat', Nat.reducePow, Nat.reduceMod] at hle ⊢
  omega

/-- The empty test decides `R = W`. -/
theorem Tracks.empty_iff (hr : Tracks nr R) (hw : Tracks nw W) (hRW : R ≤ W)
    (hle : W ≤ R + PIPESIZE) : (nr == nw) = true ↔ R = W := by
  unfold Tracks at hw hr
  rw [beq_iff_eq, ← UInt32.toNat_inj, hw, hr]
  simp only [PIPESIZE] at hle
  omega

/-- `nwrite - nread`, in `uint` arithmetic, is the number of bytes in the ring. -/
theorem Tracks.sub (hr : Tracks nr R) (hw : Tracks nw W) (hRW : R ≤ W) (hle : W ≤ R + PIPESIZE) :
    (nw - nr).toNat = W - R := by
  unfold Tracks at hw hr
  rw [UInt32.toNat_sub, hw, hr]
  simp only [PIPESIZE] at hle
  omega

end Tests

/-! ## The ring -/

/-- The pipe holds the stream `w` of which `r` has been read. -/
structure RingInv (p : Pipe) (w r : List UInt8) : Prop where
  nwrite : Tracks p.nwrite w.length
  nread : Tracks p.nread r.length
  read_prefix : r <+: w
  room : w.length ≤ r.length + PIPESIZE
  ring : ∀ k (hk : k < w.length), r.length ≤ k → p.data (k % PIPESIZE) = w[k]

theorem RingInv.alloc (junk : Nat → UInt8) : RingInv (pipealloc junk) [] [] where
  nwrite := Tracks.zero
  nread := Tracks.zero
  read_prefix := List.nil_prefix
  room := Nat.zero_le _
  ring := fun _ hk => absurd hk (Nat.not_lt_zero _)

/-- Other fields than the ring's do not matter. -/
theorem RingInv.congr {p q : Pipe} {w r : List UInt8} (h : RingInv p w r) (hd : q.data = p.data)
    (hr : q.nread = p.nread) (hw : q.nwrite = p.nwrite) : RingInv q w r := by
  obtain ⟨h1, h2, h3, h4, h5⟩ := h
  exact ⟨hw ▸ h1, hr ▸ h2, h3, h4, hd ▸ h5⟩

theorem RingInv.length_le {p : Pipe} {w r : List UInt8} (h : RingInv p w r) :
    r.length ≤ w.length :=
  h.read_prefix.length_le

/-- Storing a byte into a ring that is not full. -/
theorem RingInv.push {p : Pipe} {w r : List UInt8} (h : RingInv p w r)
    (hfull : ¬(p.nwrite == p.nread + UInt32.ofNat PIPESIZE) = true) (ch : UInt8) :
    RingInv { p with
              data := Function.update p.data (p.nwrite % UInt32.ofNat PIPESIZE).toNat ch
              nwrite := p.nwrite + 1 } (w ++ [ch]) r := by
  have hlt : w.length < r.length + PIPESIZE := by
    have := (h.nwrite.full_iff h.nread h.length_le h.room).not.mp hfull
    have := h.room
    omega
  have hidx := h.nwrite.index
  refine ⟨by simpa using h.nwrite.succ, h.nread, h.read_prefix.trans (List.prefix_append _ _),
    by simp; omega, fun k hk hrk => ?_⟩
  simp only [List.length_append, List.length_singleton] at hk
  dsimp only
  rw [hidx]
  by_cases hkw : k = w.length
  · subst hkw
    simp
  · -- an older byte sits in another slot: the two counts differ by less than `PIPESIZE`
    have hk' : k < w.length := by omega
    have hslot : k % PIPESIZE ≠ w.length % PIPESIZE := by
      simp only [PIPESIZE] at hlt ⊢
      omega
    rw [Function.update_of_ne hslot, List.getElem_append_left hk']
    exact h.ring k hk' hrk

/-- Taking a byte out of a ring that is not empty: the oldest byte not yet read. -/
theorem RingInv.pop {p : Pipe} {w r : List UInt8} (h : RingInv p w r)
    (hempty : ¬(p.nread == p.nwrite) = true) :
    ∃ hr : r.length < w.length, p.data (p.nread % UInt32.ofNat PIPESIZE).toNat = w[r.length] ∧
      RingInv { p with nread := p.nread + 1 } w (r ++ [w[r.length]]) := by
  have hle := h.length_le
  have hlt : r.length < w.length := by
    have := (h.nread.empty_iff h.nwrite hle h.room).not.mp hempty
    omega
  refine ⟨hlt, by rw [h.nread.index]; exact h.ring _ hlt (Nat.le_refl _), ?_⟩
  refine ⟨h.nwrite, by simpa using h.nread.succ, ?_, by simp; have := h.room; omega,
    fun k hk hrk => h.ring k hk (by simp at hrk; omega)⟩
  -- the prefix grows by the next byte of the stream
  obtain ⟨t, ht⟩ := h.read_prefix
  refine ⟨t.tail, ?_⟩
  have hne : t ≠ [] := by
    rintro rfl
    rw [List.append_nil] at ht
    rw [ht] at hlt
    exact Nat.lt_irrefl _ hlt
  obtain ⟨c, t', rfl⟩ := List.exists_cons_of_ne_nil hne
  have hc : w[r.length] = c := by
    subst ht
    simp
  rw [hc, ← ht]
  simp

/-! ## One hold of the lock -/

/-- A hold of the lock in `pipewrite` stores its bytes at the end of the stream. -/
theorem pipewriteLoop_spec (killed : Nat → Bool) (umem : Nat → Option UInt8) (addr : Nat)
    (n : Int) (fuel i : Nat) {p : Pipe} {w r : List UInt8} (h : RingInv p w r) :
    RingInv (pipewriteLoop killed umem addr n fuel i p).1
        (w ++ (pipewriteLoop killed umem addr n fuel i p).2.2) r ∧
      (pipewriteLoop killed umem addr n fuel i p).1.nread = p.nread ∧
      (pipewriteLoop killed umem addr n fuel i p).1.readopen = p.readopen ∧
      (pipewriteLoop killed umem addr n fuel i p).1.writeopen = p.writeopen := by
  induction fuel generalizing i p w with
  | zero => simpa [pipewriteLoop] using h
  | succ fuel ih =>
    simp only [pipewriteLoop]
    split_ifs with hi hstop hfull
    · simpa using h
    · simpa using h
    · split
      · simpa using h
      · rename_i ch _
        -- store `ch`, then the rest of the hold from the next byte
        obtain ⟨hinv, hr, hro, hwo⟩ := ih (i + 1) (h.push hfull ch)
        exact ⟨by simpa using hinv, hr, hro, hwo⟩
    · simpa using h

theorem pipewrite_spec (p : Pipe) (killed : Nat → Bool) (umem : Nat → Option UInt8)
    (addr : Nat) (n : Int) (i : Nat) {w r : List UInt8} (h : RingInv p w r) :
    RingInv (pipewrite p killed umem addr n i).1 (w ++ (pipewrite p killed umem addr n i).2.2) r ∧
      (pipewrite p killed umem addr n i).1.readopen = p.readopen ∧
      (pipewrite p killed umem addr n i).1.writeopen = p.writeopen := by
  obtain ⟨hinv, -, hro, hwo⟩ := pipewriteLoop_spec killed umem addr n (n.toNat - i) i h
  exact ⟨hinv, hro, hwo⟩

/-- The copy loop of `piperead` hands out the next bytes of the stream, in order. -/
theorem pipereadLoop_spec (uok : Nat → Bool) (addr : Nat) (n : Int) (fuel i : Nat) {p : Pipe}
    {w r : List UInt8} (h : RingInv p w r) :
    RingInv (pipereadLoop uok addr n fuel i p).1 w (r ++ (pipereadLoop uok addr n fuel i p).2.2) ∧
      (pipereadLoop uok addr n fuel i p).1.readopen = p.readopen ∧
      (pipereadLoop uok addr n fuel i p).1.writeopen = p.writeopen := by
  induction fuel generalizing i p r with
  | zero => simpa [pipereadLoop] using h
  | succ fuel ih =>
    simp only [pipereadLoop]
    split_ifs with hi hempty hok
    · simpa using h
    · simpa using h
    · simpa using h
    · -- copy out the oldest byte, then the rest from the next position
      obtain ⟨hlt, hch, hpop⟩ := h.pop hempty
      obtain ⟨hinv, hro, hwo⟩ := ih (i + 1) hpop
      refine ⟨?_, hro, hwo⟩
      rw [hch]
      simpa using hinv
    · simpa using h

/-- The copy loop returns at least the bytes it started from, or `-1` when the very first
`copyout` fails. -/
theorem pipereadLoop_ret (uok : Nat → Bool) (addr : Nat) (n : Int) (fuel i : Nat) (p : Pipe) :
    (i : Int) ≤ (pipereadLoop uok addr n fuel i p).2.1 ∨
      (i = 0 ∧ (pipereadLoop uok addr n fuel i p).2.1 = -1) := by
  induction fuel generalizing i p with
  | zero => simp [pipereadLoop]
  | succ fuel ih =>
    simp only [pipereadLoop]
    split_ifs with hi hempty hok h0
    · simp
    · exact .inr ⟨h0, rfl⟩
    · simp
    · rcases ih (i + 1) { p with nread := p.nread + 1 } with h | ⟨h, -⟩
      · exact .inl (by simp only at h ⊢; omega)
      · omega
    · simp

/-- Asked for `n > 0` bytes, the copy loop returns `0` only on an empty ring. -/
theorem pipereadLoop_eq_zero {uok : Nat → Bool} {addr : Nat} {n : Int} {fuel : Nat} {p : Pipe}
    (hn : 0 < n) (h : (pipereadLoop uok addr n (fuel + 1) 0 p).2.1 = 0) :
    (p.nread == p.nwrite) = true := by
  by_contra hne
  have hlt : ((0 : Nat) : Int) < n := by omega
  simp only [pipereadLoop, if_pos hlt, if_neg hne] at h
  split_ifs at h with hok
  · simp at h
  · -- the first byte was copied out, so the count is at least one
    rcases pipereadLoop_ret uok addr n fuel 1 { p with nread := p.nread + 1 } with h1 | ⟨h1, -⟩
    · simp only [Nat.zero_add] at h h1
      omega
    · omega

/-- `piperead` with `n > 0` returns `0` only on an empty pipe whose write end is closed. -/
theorem piperead_eq_zero {p p' : Pipe} {killed : Bool} {uok : Nat → Bool} {addr : Nat} {n : Int}
    {out : List UInt8} (hn : 0 < n) (h : piperead p killed uok addr n = some (p', 0, out)) :
    (p.nread == p.nwrite) = true ∧ p.writeopen = false := by
  unfold piperead at h
  split_ifs at h with hwait hk
  · cases h
  · obtain ⟨fuel, hfuel⟩ : ∃ fuel, n.toNat = fuel + 1 := ⟨n.toNat - 1, by omega⟩
    have hret := congrArg (fun x => x.2.1) (Option.some.inj h)
    simp only [hfuel] at hret
    have hempty := pipereadLoop_eq_zero hn hret
    exact ⟨hempty, by simpa [hempty] using hwait⟩

/-! ## Every run -/

/-- What every hold of the lock keeps: the ring, and one `kfree` exactly when both ends are
closed. -/
structure PipeInv (s : PipeSys) : Prop where
  ring : RingInv s.pipe s.written s.readOut
  frees_eq : s.frees = if s.pipe.readopen || s.pipe.writeopen then 0 else 1

theorem PipeInv.init (junk : Nat → UInt8) : PipeInv (PipeSys.init junk) :=
  ⟨RingInv.alloc junk, rfl⟩

theorem PipeInv.step {s t : PipeSys} {e : PipeEvent} (hi : PipeInv s) (h : PipeStep s e t) :
    PipeInv t := by
  have hf := hi.frees_eq
  cases h with
  | @write killed umem addr n i p stop out _ hw =>
    obtain ⟨hinv, hro, hwo⟩ := pipewrite_spec s.pipe killed umem addr n i hi.ring
    rw [hw] at hinv hro hwo
    dsimp only at hro hwo
    exact ⟨hinv, by rw [hro, hwo]; exact hf⟩
  | @read killed uok addr n p r out _ hr =>
    unfold piperead at hr
    split_ifs at hr with hwait hk
    · -- killed while waiting: nothing moves
      cases hr
      simpa using hi
    · obtain ⟨hinv, hro, hwo⟩ := pipereadLoop_spec uok addr n n.toNat 0 hi.ring
      rw [Option.some.inj hr] at hinv hro hwo
      dsimp only at hro hwo
      exact ⟨hinv, by rw [hro, hwo]; exact hf⟩
  | @close writable p freed hopen hc =>
    simp only [pipeclose] at hc
    obtain ⟨hp, hfreed⟩ := Prod.mk.inj hc
    subst hp hfreed
    -- the end was open, so this is its first close; the page goes with the second
    cases writable with
    | true =>
      have hw : s.pipe.writeopen = true := by simpa using hopen
      simp only [hw, Bool.or_true, if_true] at hf
      refine ⟨hi.ring.congr rfl rfl rfl, ?_⟩
      cases hr : s.pipe.readopen <;> simp [hf]
    | false =>
      have hr : s.pipe.readopen = true := by simpa using hopen
      simp only [hr, Bool.true_or, if_true] at hf
      refine ⟨hi.ring.congr rfl rfl rfl, ?_⟩
      cases hw : s.pipe.writeopen <;> simp [hf]

theorem PipeInv.reachable {junk : Nat → UInt8} {evs : List PipeEvent} {s : PipeSys}
    (h : Trace.Run PipeStep (PipeSys.init junk) evs s) : PipeInv s :=
  Trace.Run.invariant (PipeInv.init junk) (fun _ _ _ hi hs => hi.step hs) h

theorem pipe_fifo_safe {junk : Nat → UInt8} {evs : List PipeEvent} {s : PipeSys}
    (h : Trace.Run PipeStep (PipeSys.init junk) evs s) :
    (s.pipe.nwrite - s.pipe.nread).toNat ≤ PIPESIZE ∧
      s.readOut <+: s.written ∧
      (∀ k (hk : k < s.written.length), s.readOut.length ≤ k →
        s.pipe.data (k % PIPESIZE) = s.written[k]) ∧
      (∀ killed uok addr n p out, 0 < n → piperead s.pipe killed uok addr n = some (p, 0, out) →
        s.readOut.length = s.written.length ∧ s.pipe.writeopen = false) ∧
      s.frees = if s.pipe.readopen || s.pipe.writeopen then 0 else 1 := by
  have hi := PipeInv.reachable h
  have hring := hi.ring
  have hle := hring.length_le
  refine ⟨?_, hring.read_prefix, hring.ring, fun killed uok addr n p out hn hr => ?_, hi.frees_eq⟩
  · rw [hring.nread.sub hring.nwrite hle hring.room]
    have := hring.room
    omega
  · obtain ⟨hempty, hclosed⟩ := piperead_eq_zero hn hr
    exact ⟨(hring.nread.empty_iff hring.nwrite hle hring.room).mp hempty, hclosed⟩

/-- A writer stores two bytes, then a reader takes one. -/
theorem pipe_fifo_safe_write_read :
    ∃ s, Trace.Run PipeStep (PipeSys.init fun _ => 0)
        [.write (fun _ => false) (fun a => some (UInt8.ofNat a)) 0 2 0,
          .read false (fun _ => true) 100 1] s ∧
      ((s.pipe.nwrite - s.pipe.nread).toNat ≤ PIPESIZE ∧
        s.readOut <+: s.written ∧
        (∀ k (hk : k < s.written.length), s.readOut.length ≤ k →
          s.pipe.data (k % PIPESIZE) = s.written[k]) ∧
        (∀ killed uok addr n p out, 0 < n → piperead s.pipe killed uok addr n = some (p, 0, out) →
          s.readOut.length = s.written.length ∧ s.pipe.writeopen = false) ∧
        s.frees = if s.pipe.readopen || s.pipe.writeopen then 0 else 1) := by
  have h1 := @PipeStep.write (PipeSys.init fun _ => 0) (fun _ => false)
    (fun a => some (UInt8.ofNat a)) 0 2 0 _ _ _ rfl rfl
  have hrun := (Trace.Run.single h1).snoc (@PipeStep.read _ false (fun _ => true) 100 1 _ _ _ rfl rfl)
  exact ⟨_, hrun, pipe_fifo_safe hrun⟩

end Xv6
