import Xv6.Proofs.BioProofs
import Xv6.Lib.Run

/-!
# The invariant of the LRU list

Over the list model `LruSys`: each buffer is on the list once, a block is in at most one buffer,
each count is what the callers hold, and the unused buffers come in the order of their last
release, most recent first. The last part needs the log's discipline on `bunpin`: a buffer is
unpinned only while its caller holds it, so `bunpin` never takes a count to zero. `brelse` is
then the only way a count reaches zero, and it moves the buffer to the front.
-/

namespace Xv6

/-- The buffers with no references, in list order. -/
def LruSys.unused (a : LruSys) : List (Fin NBUF) := a.order.filter fun i => (a.buf i).refcnt == 0

/-- No two buffers carry the same block of a device other than `0`. -/
def IdentUnique (buf : Fin NBUF → Buf) : Prop :=
  ∀ i j, i ≠ j → (buf i).dev ≠ 0 → (buf i).dev = (buf j).dev → (buf i).blockno ≠ (buf j).blockno

/-- A new identity for buffer `i` that no other buffer carries keeps identities unique. -/
theorem IdentUnique.update {buf : Fin NBUF → Buf} (h : IdentUnique buf) {i : Fin NBUF} {b : Buf}
    (hb : ∀ j, j ≠ i → b.dev ≠ 0 → b.dev = (buf j).dev → b.blockno ≠ (buf j).blockno) :
    IdentUnique (Function.update buf i b) := by
  intro j k hjk
  by_cases hj : j = i
  · subst hj
    rw [Function.update_self, Function.update_of_ne (Ne.symm hjk)]
    exact hb k (Ne.symm hjk)
  · by_cases hk : k = i
    · subst hk
      rw [Function.update_self, Function.update_of_ne hj]
      intro h0 hdev hblk
      exact hb j hj (hdev ▸ h0) hdev.symm hblk.symm
    · rw [Function.update_of_ne hj, Function.update_of_ne hk]
      exact h j k hjk

/-- The invariant of the list. -/
structure LruInv (a : LruSys) : Prop where
  nodup : a.order.Nodup
  mem : ∀ i, i ∈ a.order
  ident : IdentUnique a.buf
  count : ∀ i, (a.buf i).refcnt = a.gets i + a.pins i
  lru : a.unused.Pairwise fun i j => a.stamp j < a.stamp i
  stamp_lt : ∀ i, a.stamp i < a.clock

theorem LruInv.init : LruInv LruSys.init where
  nodup := List.nodup_reverse.mpr (List.nodup_finRange NBUF)
  mem := fun i => List.mem_reverse.mpr (List.mem_finRange i)
  ident := fun _ _ _ h0 => absurd rfl h0
  count := fun _ => rfl
  lru := by
    have hall : LruSys.init.unused = (List.finRange NBUF).reverse := List.filter_eq_self.mpr (by simp [LruSys.init])
    rw [hall, List.pairwise_reverse]
    exact List.pairwise_lt_finRange NBUF
  stamp_lt := fun i => i.isLt

/-! ## What each call does to the list -/

/-- `lruGet` either takes the block's buffer or recycles the last unused one. -/
theorem lruGet_ok {dev blockno : Nat} {buf buf' : Fin NBUF → Buf} {order : List (Fin NBUF)} {i : Fin NBUF}
    (h : lruGet dev blockno buf order = .ok (i, buf')) :
    (order.find? (fun j => (buf j).dev == dev && (buf j).blockno == blockno) = some i ∧
      buf' = Function.update buf i { buf i with refcnt := (buf i).refcnt + 1 }) ∨
    (order.find? (fun j => (buf j).dev == dev && (buf j).blockno == blockno) = none ∧
      order.reverse.find? (fun j => (buf j).refcnt == 0) = some i ∧
      buf' = Function.update buf i ⟨dev, blockno, false, 1⟩) := by
  unfold lruGet at h
  split at h
  · rename_i j hj
    cases h
    exact .inl ⟨hj, rfl⟩
  · rename_i hnone
    split at h
    · rename_i j hj
      cases h
      exact .inr ⟨hnone, hj, rfl⟩
    · cases h

theorem lruGet_error {dev blockno : Nat} {buf : Fin NBUF → Buf} {order : List (Fin NBUF)} {e : String}
    (h : lruGet dev blockno buf order = .error e) :
    order.find? (fun j => (buf j).dev == dev && (buf j).blockno == blockno) = none ∧
      order.reverse.find? (fun j => (buf j).refcnt == 0) = none := by
  unfold lruGet at h
  split at h
  · cases h
  · rename_i hnone
    split at h
    · cases h
    · rename_i hz
      exact ⟨hnone, hz⟩

/-! ## The invariant is kept -/

section Keep

variable {a : LruSys}

/-- Fewer unused buffers, the same list and stamps: the order of the unused ones is kept. -/
theorem lru_of_fewer_unused {a' : LruSys} (h : a.unused.Pairwise fun i j => a.stamp j < a.stamp i)
    (hord : a'.order = a.order) (hstamp : a'.stamp = a.stamp)
    (hfew : ∀ j, (a'.buf j).refcnt = 0 → (a.buf j).refcnt = 0) :
    a'.unused.Pairwise fun i j => a'.stamp j < a'.stamp i := by
  have hsub : a'.unused.Sublist a.unused := by
    unfold LruSys.unused
    rw [hord]
    exact List.monotone_filter_right _ (by simpa using hfew)
  rw [hstamp]
  exact h.sublist hsub

/-- A call that changes buffer `i` only, keeps the list and the stamps, and leaves no buffer
newly unused. -/
theorem LruInv.of_update (h : LruInv a) {a' : LruSys} {i : Fin NBUF} {b : Buf}
    (hbuf : a'.buf = Function.update a.buf i b) (hord : a'.order = a.order)
    (hstamp : a'.stamp = a.stamp) (hclock : a'.clock = a.clock)
    (hident : ∀ j, j ≠ i → b.dev ≠ 0 → b.dev = (a.buf j).dev → b.blockno ≠ (a.buf j).blockno)
    (hgets : ∀ j, j ≠ i → a'.gets j = a.gets j) (hpins : ∀ j, j ≠ i → a'.pins j = a.pins j)
    (hcount : b.refcnt = a'.gets i + a'.pins i)
    (hfew : b.refcnt = 0 → (a.buf i).refcnt = 0) : LruInv a' where
  nodup := hord ▸ h.nodup
  mem := hord ▸ h.mem
  ident := hbuf ▸ h.ident.update hident
  count := by
    intro j
    rw [hbuf]
    by_cases hj : j = i
    · subst hj
      rw [Function.update_self, hcount]
    · rw [Function.update_of_ne hj, hgets j hj, hpins j hj]
      exact h.count j
  lru := by
    refine lru_of_fewer_unused h.lru hord hstamp fun j hj => ?_
    rw [hbuf] at hj
    by_cases hji : j = i
    · subst hji
      rw [Function.update_self] at hj
      exact hfew hj
    · rwa [Function.update_of_ne hji] at hj
  stamp_lt := hstamp ▸ hclock ▸ h.stamp_lt

/-- The same identity as before. -/
theorem LruInv.ident_same (h : LruInv a) (i : Fin NBUF) (b : Buf) (hdev : b.dev = (a.buf i).dev)
    (hblk : b.blockno = (a.buf i).blockno) :
    ∀ j, j ≠ i → b.dev ≠ 0 → b.dev = (a.buf j).dev → b.blockno ≠ (a.buf j).blockno := by
  intro j hji
  rw [hdev, hblk]
  exact h.ident i j (Ne.symm hji)

/-- Setting `valid` changes nothing the invariant reads. -/
theorem LruInv.setValid (h : LruInv a) (i : Fin NBUF) :
    LruInv { a with buf := Function.update a.buf i { a.buf i with valid := true } } := by
  exact h.of_update rfl rfl rfl rfl (h.ident_same i _ rfl rfl) (fun _ _ => rfl) (fun _ _ => rfl)
    (h.count i) id

theorem LruSys.released_of_ne {a : LruSys} {i : Fin NBUF} (h : (a.buf i).refcnt ≠ 0) :
    a.released i = a := by
  unfold LruSys.released
  rw [if_neg h]

/-- The last reference to `i` goes: `i` moves to the front of the list with the newest stamp. -/
theorem LruInv.release_front (h : LruInv a) {i : Fin NBUF} (hg : a.gets i ≠ 0)
    (hz : (a.buf i).refcnt - 1 = 0) :
    LruInv (LruSys.released
      { a with
        buf := Function.update a.buf i { a.buf i with refcnt := (a.buf i).refcnt - 1 }
        order := i :: a.order.erase i
        gets := Function.update a.gets i (a.gets i - 1) } i) := by
  have hci := h.count i
  unfold LruSys.released
  rw [if_pos (by simpa using hz)]
  dsimp only
  refine ⟨List.nodup_cons.mpr ⟨h.nodup.not_mem_erase, h.nodup.erase i⟩, fun j => ?_,
    h.ident.update (h.ident_same i _ rfl rfl), fun j => ?_, ?_, fun j => ?_⟩
  · by_cases hj : j = i
    · exact hj ▸ List.mem_cons_self
    · exact List.mem_cons_of_mem i ((List.mem_erase_of_ne hj).mpr (h.mem j))
  · by_cases hj : j = i
    · subst hj
      simp only [Function.update_self]
      omega
    · simpa [Function.update_of_ne hj] using h.count j
  · -- the rest of the unused buffers keep their order and their older stamps
    have hrest : ((a.order.erase i).filter fun j =>
        (Function.update a.buf i { a.buf i with refcnt := (a.buf i).refcnt - 1 } j).refcnt == 0) =
        (a.order.erase i).filter fun j => (a.buf j).refcnt == 0 := by
      refine List.filter_congr fun j hj => ?_
      have hji : j ≠ i := fun e => h.nodup.not_mem_erase (e ▸ hj)
      rw [Function.update_of_ne hji]
    have hsub : ((a.order.erase i).filter fun j => (a.buf j).refcnt == 0).Sublist a.unused :=
      List.erase_sublist.filter _
    unfold LruSys.unused
    dsimp only
    rw [List.filter_cons_of_pos (by simpa using hz), hrest, List.pairwise_cons]
    constructor
    · intro j hj
      have hji : j ≠ i := fun e => h.nodup.not_mem_erase (e ▸ (List.mem_filter.mp hj).1)
      rw [Function.update_self, Function.update_of_ne hji]
      exact h.stamp_lt j
    · refine (h.lru.sublist hsub).imp_of_mem fun hj hk hjk => ?_
      have hji : _ ≠ i := fun e => h.nodup.not_mem_erase (e ▸ (List.mem_filter.mp hj).1)
      have hki : _ ≠ i := fun e => h.nodup.not_mem_erase (e ▸ (List.mem_filter.mp hk).1)
      rw [Function.update_of_ne hji, Function.update_of_ne hki]
      exact hjk
  · dsimp only
    by_cases hj : j = i
    · subst hj
      simp
    · rw [Function.update_of_ne hj]
      exact Nat.lt_succ_of_lt (h.stamp_lt j)

end Keep

/-- Every call that keeps the log's discipline keeps the invariant. -/
theorem LruInv.step {a a' : LruSys} (h : LruInv a) {e : BEvent} (hs : a.step true e = some a') :
    LruInv a' := by
  cases e with
  | bread dev blockno =>
    simp only [LruSys.step] at hs
    split at hs
    · rename_i i buf' hg
      cases hs
      -- the buffer the block gets, before its `valid` is set
      have h1 : LruInv { a with buf := buf', gets := Function.update a.gets i (a.gets i + 1) } := by
        have hci := h.count i
        have hgets : ∀ j, j ≠ i → Function.update a.gets i (a.gets i + 1) j = a.gets j :=
          fun j hj => Function.update_of_ne hj _ _
        rcases lruGet_ok hg with ⟨-, rfl⟩ | ⟨hnone, hz, rfl⟩
        · exact h.of_update rfl rfl rfl rfl (h.ident_same i _ rfl rfl) hgets (fun _ _ => rfl)
            (by simp only [Function.update_self]; omega) (by simp)
        · -- a recycled buffer was unused, and no buffer held the block
          have hzero : (a.buf i).refcnt = 0 := by simpa using List.find?_some hz
          refine h.of_update rfl rfl rfl rfl (fun j _ _ hdev => ?_) hgets (fun _ _ => rfl)
            (by simp only [Function.update_self]; omega) (by simp)
          have := List.find?_eq_none.mp hnone j (h.mem j)
          simp only [Bool.and_eq_true, beq_iff_eq, not_and] at this
          exact fun hblk => this hdev.symm hblk.symm
      split
      · exact h1.setValid i
      · exact h1
    · cases hs
  | brelse i =>
    simp only [LruSys.step] at hs
    split_ifs at hs with hg hz
    · cases hs
      exact h.release_front hg hz
    · cases hs
      have hci := h.count i
      rw [LruSys.released_of_ne (by simpa using hz)]
      exact h.of_update rfl rfl rfl rfl (h.ident_same i _ rfl rfl)
        (fun j hj => Function.update_of_ne hj _ _) (fun _ _ => rfl)
        (by simp only [Function.update_self]; omega) (by simp [hz])
  | bpin i =>
    simp only [LruSys.step] at hs
    cases hs
    have hci := h.count i
    exact h.of_update rfl rfl rfl rfl (h.ident_same i _ rfl rfl) (fun _ _ => rfl)
      (fun j hj => Function.update_of_ne hj _ _) (by simp only [Function.update_self]; omega)
      (by simp)
  | bunpin i =>
    simp only [LruSys.step] at hs
    split_ifs at hs with hp
    cases hs
    have hci := h.count i
    -- the caller still holds the buffer, so the count stays above zero
    simp only [true_and] at hp
    have hpos : (a.buf i).refcnt - 1 ≠ 0 := by omega
    rw [LruSys.released_of_ne (by simpa using hpos)]
    exact h.of_update rfl rfl rfl rfl (h.ident_same i _ rfl rfl) (fun _ _ => rfl)
      (fun j hj => Function.update_of_ne hj _ _) (by simp only [Function.update_self]; omega)
      (by simp [hpos])

/-! ## What `bget` chooses -/

/-- The buffer the backward search finds is unused, and released before every other unused one. -/
theorem LruInv.recycle_oldest {a : LruSys} (h : LruInv a) {i : Fin NBUF}
    (hf : a.order.reverse.find? (fun j => (a.buf j).refcnt == 0) = some i) :
    (a.buf i).refcnt = 0 ∧ ∀ j, j ≠ i → (a.buf j).refcnt = 0 → a.stamp i < a.stamp j := by
  -- `i` is the last unused buffer of the list
  have hlast : a.unused.getLast? = some i := by
    rw [← List.head?_reverse, LruSys.unused, ← List.filter_reverse, List.head?_filter]
    exact hf
  obtain ⟨ys, hys⟩ := List.getLast?_eq_some_iff.mp hlast
  refine ⟨by simpa using List.find?_some hf, fun j hji hj0 => ?_⟩
  have hju : j ∈ a.unused := List.mem_filter.mpr ⟨h.mem j, by simpa using hj0⟩
  rw [hys] at hju
  have hjys : j ∈ ys := by
    rcases List.mem_append.mp hju with hj | hj
    · exact hj
    · exact absurd (List.mem_singleton.mp hj) hji
  have hl := h.lru
  rw [hys] at hl
  exact hl.rel_of_mem_append hjys (List.mem_singleton_self i)

/-- The forward search finds the one buffer that holds the block. -/
theorem LruInv.find_cached {a : LruSys} (h : LruInv a) {i : Fin NBUF} {dev blockno : Nat}
    (hdev : (a.buf i).dev = dev) (hblk : (a.buf i).blockno = blockno) (h0 : dev ≠ 0) :
    a.order.find? (fun j => (a.buf j).dev == dev && (a.buf j).blockno == blockno) = some i := by
  cases hf : a.order.find? (fun j => (a.buf j).dev == dev && (a.buf j).blockno == blockno) with
  | none =>
    have := List.find?_eq_none.mp hf i (h.mem i)
    simp [hdev, hblk] at this
  | some j =>
    have hj := List.find?_some hf
    simp only [Bool.and_eq_true, beq_iff_eq] at hj
    by_cases hji : j = i
    · rw [hji]
    · exact absurd (hj.2.trans hblk.symm) (h.ident j i hji (hj.1 ▸ h0) (hj.1.trans hdev.symm))

/-- What `bget` does: a block that a buffer of a device other than `0` holds gets that buffer;
otherwise the unused buffer released least recently is recycled; and the panic comes only when
every buffer is in use. -/
def BgetSpec (s : BSys) : Prop :=
  ∀ dev blockno,
    (∀ i, (s.cache.buf i).dev = dev → (s.cache.buf i).blockno = blockno → dev ≠ 0 →
      ∃ c', bget dev blockno s.cache = .ok (i, c')) ∧
    ((∀ i, ¬((s.cache.buf i).dev = dev ∧ (s.cache.buf i).blockno = blockno)) →
      ∀ i c', bget dev blockno s.cache = .ok (i, c') →
        (s.cache.buf i).refcnt = 0 ∧ ∀ j, j ≠ i → (s.cache.buf j).refcnt = 0 → s.stamp i < s.stamp j) ∧
    (∀ e, bget dev blockno s.cache = .error e → ∀ i, 0 < (s.cache.buf i).refcnt)

theorem Refines.bgetSpec {s : BSys} {a : LruSys} (h : Refines s a) (hi : LruInv a) : BgetSpec s := by
  intro dev blockno
  have hget := h.linked.bget_eq dev blockno
  rw [h.buf] at hget ⊢
  rw [h.stamp]
  refine ⟨fun i hdev hblk h0 => ?_, fun hnot i c' hok => ?_, fun e herr i => ?_⟩
  · rw [hget, lruGet, hi.find_cached hdev hblk h0]
    exact ⟨_, rfl⟩
  · have hnone : a.order.find? (fun j => (a.buf j).dev == dev && (a.buf j).blockno == blockno) = none :=
      List.find?_eq_none.mpr fun j _ hj => hnot j (by simpa using hj)
    rw [hget, lruGet, hnone] at hok
    dsimp only at hok
    cases hf : a.order.reverse.find? (fun j => (a.buf j).refcnt == 0) with
    | none =>
      rw [hf] at hok
      cases hok
    | some k =>
      rw [hf] at hok
      cases hok
      exact hi.recycle_oldest hf
  · rw [hget] at herr
    cases hg : lruGet dev blockno a.buf a.order with
    | ok r =>
      rw [hg] at herr
      cases herr
    | error e' =>
      have hz := (lruGet_error hg).2
      have := List.find?_eq_none.mp hz i (List.mem_reverse.mpr (hi.mem i))
      simp only [beq_iff_eq] at this
      exact Nat.pos_of_ne_zero this

/-! ## Runs of the cache -/

/-- A call of the cache, by a caller keeping the discipline. -/
def BStep (held : Bool) (s : BSys) (e : BEvent) (t : BSys) : Prop := s.step held e = some t

/-- Along every run that keeps the log's discipline, the code's cache is an LRU list that keeps
its invariant. -/
theorem BSys.refined_of_run {evs : List BEvent} {s : BSys}
    (h : Trace.Run (BStep true) BSys.init evs s) : ∃ a, Refines s a ∧ LruInv a := by
  refine Trace.Run.invariant (P := fun t => ∃ a, Refines t a ∧ LruInv a)
    ⟨LruSys.init, Refines.init, LruInv.init⟩ ?_ h
  rintro t e u ⟨a, hr, hi⟩ hs
  have hrel := hr.step true e
  rw [show t.step true e = some u from hs] at hrel
  cases hstep : a.step true e with
  | none =>
    rw [hstep] at hrel
    cases hrel
  | some a' =>
    rw [hstep] at hrel
    cases hrel with
    | some hr' => exact ⟨a', hr', hi.step hstep⟩

theorem bcache_invariant {evs : List BEvent} {s : BSys} (h : Trace.Run (BStep true) BSys.init evs s) :
    ∃ order : List (Fin NBUF),
      (DList.Ring .head (order.map .buf) s.cache.next s.cache.prev ∧ order.Nodup ∧ (∀ i, i ∈ order) ∧
        ∀ x, s.cache.prev (s.cache.next x) = x ∧ s.cache.next (s.cache.prev x) = x) ∧
      IdentUnique s.cache.buf ∧
      (∀ i, (s.cache.buf i).refcnt = s.gets i + s.pins i) ∧
      BgetSpec s := by
  obtain ⟨a, hr, hi⟩ := BSys.refined_of_run h
  -- every node is the head or a buffer of the list
  have hnode : ∀ x, x ∈ BNode.head :: a.order.map BNode.buf := by
    intro x
    cases x with
    | head => exact List.mem_cons_self
    | buf i => exact List.mem_cons_of_mem _ (List.mem_map_of_mem (hi.mem i))
  refine ⟨a.order, ⟨hr.linked.ring, hi.nodup, hi.mem, fun x =>
    ⟨hr.linked.ring.prev_next (hnode x), hr.linked.ring.next_prev (hnode x)⟩⟩, ?_, ?_, ?_⟩
  · rw [hr.buf]
    exact hi.ident
  · rw [hr.buf, hr.gets, hr.pins]
    exact hi.count
  · exact hr.bgetSpec hi

theorem bcache_invariant_at_binit :
    ∃ order : List (Fin NBUF),
      (DList.Ring .head (order.map .buf) BSys.init.cache.next BSys.init.cache.prev ∧ order.Nodup ∧
        (∀ i, i ∈ order) ∧
        ∀ x, BSys.init.cache.prev (BSys.init.cache.next x) = x ∧
          BSys.init.cache.next (BSys.init.cache.prev x) = x) ∧
      IdentUnique BSys.init.cache.buf ∧
      (∀ i, (BSys.init.cache.buf i).refcnt = BSys.init.gets i + BSys.init.pins i) ∧
      BgetSpec BSys.init :=
  bcache_invariant (Trace.Run.nil BSys.init)

/-- Buffer `0` is read and pinned, buffer `1` is read and released, then buffer `0` is released
and unpinned: its count falls to zero by `bunpin`, which leaves it at the back of the list. -/
def unpinCalls : List BEvent :=
  [.bread 1 10, .bpin ⟨0, by decide⟩, .bread 1 20, .brelse ⟨1, by decide⟩, .brelse ⟨0, by decide⟩,
    .bunpin ⟨0, by decide⟩]

theorem bunpin_to_zero_breaks_lru :
    ∃ s c', Trace.Run (BStep false) BSys.init unpinCalls s ∧
      (∀ i, ¬((s.cache.buf i).dev = 1 ∧ (s.cache.buf i).blockno = 30)) ∧
      bget 1 30 s.cache = .ok (⟨0, by decide⟩, c') ∧
      (s.cache.buf ⟨2, by decide⟩).refcnt = 0 ∧ s.stamp ⟨2, by decide⟩ < s.stamp ⟨0, by decide⟩ := by
  -- the same calls on the list, evaluated
  have hlist : ((Trace.replay (LruSys.step false) LruSys.init unpinCalls).map fun a =>
      (decide (∀ i, ¬((a.buf i).dev = 1 ∧ (a.buf i).blockno = 30)),
        (lruGet 1 30 a.buf a.order).toOption.map (·.1), (a.buf ⟨2, by decide⟩).refcnt,
        a.stamp ⟨2, by decide⟩, a.stamp ⟨0, by decide⟩)) =
      some (true, some ⟨0, by decide⟩, 0, 2, 31) := by
    decide
  cases ha : Trace.replay (LruSys.step false) LruSys.init unpinCalls with
  | none =>
    rw [ha] at hlist
    cases hlist
  | some a =>
    rw [ha] at hlist
    simp only [Option.map_some, Option.some.injEq, Prod.mk.injEq, decide_eq_true_eq] at hlist
    obtain ⟨hnot, hget, h2, hs2, hs0⟩ := hlist
    -- the code's cache makes the same calls
    have hrel := Trace.replay_rel (fun s b e h => Refines.step h false e) Refines.init unpinCalls
    rw [ha] at hrel
    cases hs : Trace.replay (BSys.step false) BSys.init unpinCalls with
    | none =>
      rw [hs] at hrel
      cases hrel
    | some s =>
      rw [hs] at hrel
      cases hrel with
      | some hr =>
        have hb := hr.linked.bget_eq 1 30
        rw [hr.buf] at hb
        cases hg : lruGet 1 30 a.buf a.order with
        | error e =>
          rw [hg] at hget
          cases hget
        | ok r =>
          rw [hg] at hget hb
          obtain ⟨i, buf⟩ := r
          cases hget
          refine ⟨s, _, Trace.Run.of_replay hs, ?_, hb, ?_, ?_⟩
          · rw [hr.buf]
            exact hnot
          · rw [hr.buf]
            exact h2
          · rw [hr.stamp, hs2, hs0]
            decide

end Xv6
