import Mathlib
import Xv6.Bio

/-!
# The buffer cache keeps its list, and what it chooses

The links of `bcache` always form one ring through the head and every buffer (`Linked`), so the
two loops of `bget` are searches of that list from either end (`Linked.bget_eq`), and `brelse`
moves a buffer to the front of it (`Linked.brelse`). Over the list, the cache is the LRU list
its comment describes (`LruSys`); every step of the code's model is a step of that one
(`Refines.step`).
-/

namespace Xv6

open DList

/-- The cache's links are the ring through the head and the buffers of `order`, and every
buffer is on it. -/
structure Linked (c : BCache) (order : List (Fin NBUF)) : Prop where
  ring : Ring .head (order.map .buf) c.next c.prev
  mem : ∀ i, i ∈ order

section Linked

variable {c : BCache} {order : List (Fin NBUF)}

theorem Linked.with_buf (h : Linked c order) (b : Fin NBUF → Buf) : Linked { c with buf := b } order :=
  ⟨h.ring, h.mem⟩

theorem Linked.setBuf (h : Linked c order) (i : Fin NBUF) (b : Buf) : Linked (c.setBuf i b) order :=
  ⟨h.ring, h.mem⟩

theorem Linked.nodup (h : Linked c order) : order.Nodup :=
  List.Nodup.of_map BNode.buf (List.nodup_cons.mp h.ring.nodup).2

theorem Linked.length_lt (h : Linked c order) : (order.map BNode.buf).length < NBUF + 1 := by
  have hle := h.nodup.length_le_card
  rw [Fintype.card_fin] at hle
  rw [List.length_map]
  omega

/-- A search of the list from the head, through the buffers' fields. -/
theorem Linked.walk_next (h : Linked c order) (p : Buf → Bool) :
    walk c.next .head (c.test p) (NBUF + 1) (c.next .head) =
      (order.find? fun i => p (c.buf i)).map .buf := by
  rw [h.ring.walk_next _ h.length_lt, List.find?_map]
  rfl

/-- A search of the list from its tail. -/
theorem Linked.walk_prev (h : Linked c order) (p : Buf → Bool) :
    walk c.prev .head (c.test p) (NBUF + 1) (c.prev .head) =
      (order.reverse.find? fun i => p (c.buf i)).map .buf := by
  rw [h.ring.walk_prev _ h.length_lt, ← List.map_reverse, List.find?_map]
  rfl

end Linked

section Surgery

variable {c : BCache} {O : List (Fin NBUF)}

theorem ring_pushFront (r : Ring .head (O.map .buf) c.next c.prev) {i : Fin NBUF} (hi : i ∉ O) :
    Ring .head ((i :: O).map .buf) (c.pushFront (.buf i)).next (c.pushFront (.buf i)).prev := by
  have hx : BNode.buf i ∉ BNode.head :: O.map .buf := by simpa using hi
  exact r.pushFront hx

theorem ring_unlink (r : Ring .head (O.map .buf) c.next c.prev) {i : Fin NBUF} (hi : i ∈ O) :
    Ring .head ((O.erase i).map .buf) (c.unlink (.buf i)).next (c.unlink (.buf i)).prev := by
  obtain ⟨pre, post, rfl⟩ := List.append_of_mem hi
  have hnd : (pre ++ i :: post).Nodup := List.Nodup.of_map BNode.buf (List.nodup_cons.mp r.nodup).2
  have hpre : i ∉ pre := fun h => (List.nodup_middle.mp hnd |> List.nodup_cons.mp).1
    (List.mem_append_left _ h)
  rw [List.erase_append_right _ hpre, List.erase_cons_head, List.map_append]
  rw [List.map_append, List.map_cons] at r
  exact r.unlink

/-- `binit` puts the buffers at the front one by one: buffer `NBUF - 1` ends first. -/
theorem ring_binit_loop (L : List (Fin NBUF)) (c : BCache) (O : List (Fin NBUF))
    (r : Ring .head (O.map .buf) c.next c.prev) (hL : L.Nodup) (hdis : ∀ i ∈ L, i ∉ O) :
    Ring .head ((L.reverse ++ O).map .buf) (L.foldl (fun c i => c.pushFront (.buf i)) c).next
      (L.foldl (fun c i => c.pushFront (.buf i)) c).prev := by
  induction L generalizing c O with
  | nil => simpa using r
  | cons i L ih =>
    have hfresh : i ∉ O := hdis i List.mem_cons_self
    have hr := ring_pushFront r hfresh
    have hdis' : ∀ j ∈ L, j ∉ i :: O := by
      intro j hj hjO
      rcases List.mem_cons.mp hjO with rfl | hjO
      · exact (List.nodup_cons.mp hL).1 hj
      · exact hdis j (List.mem_cons_of_mem i hj) hjO
    have := ih (c.pushFront (.buf i)) (i :: O) hr (List.nodup_cons.mp hL).2 hdis'
    simpa using this

end Surgery

theorem binit_linked : Linked binit (List.finRange NBUF).reverse where
  ring := by
    have h := ring_binit_loop (List.finRange NBUF)
      { BCache.zero with next := fun _ => .head, prev := fun _ => .head } [] (ring_nil rfl rfl)
      (List.nodup_finRange NBUF) (fun _ _ => List.not_mem_nil)
    rwa [List.append_nil] at h
  mem := fun i => List.mem_reverse.mpr (List.mem_finRange i)

/-- `brelse` moves the buffer to the front when its last reference goes. -/
theorem Linked.after_brelse {c : BCache} {order : List (Fin NBUF)} (h : Linked c order) (i : Fin NBUF) :
    Linked (brelse i c) (if (c.buf i).refcnt - 1 = 0 then i :: order.erase i else order) := by
  unfold brelse
  dsimp only
  by_cases hz : (c.buf i).refcnt - 1 = 0
  · have hbuf : ((c.setBuf i { c.buf i with refcnt := (c.buf i).refcnt - 1 }).buf i).refcnt = 0 := by
      simpa [BCache.setBuf] using hz
    rw [if_pos hbuf, if_pos hz]
    have hr := (h.setBuf i { c.buf i with refcnt := (c.buf i).refcnt - 1 }).ring
    have hu := ring_unlink hr (h.mem i)
    refine ⟨ring_pushFront hu (List.Nodup.not_mem_erase h.nodup), fun j => ?_⟩
    by_cases hj : j = i
    · exact hj ▸ List.mem_cons_self
    · exact List.mem_cons_of_mem i ((List.mem_erase_of_ne hj).mpr (h.mem j))
  · have hbuf : ¬ ((c.setBuf i { c.buf i with refcnt := (c.buf i).refcnt - 1 }).buf i).refcnt = 0 := by
      simpa [BCache.setBuf] using hz
    rw [if_neg hbuf, if_neg hz]
    exact h.setBuf i _

/-! ## The cache as a list -/

/-- `bget` on the LRU list: the first buffer of the block from the front, or else the first
unused one from the back. -/
def lruGet (dev blockno : Nat) (buf : Fin NBUF → Buf) (order : List (Fin NBUF)) :
    Except String (Fin NBUF × (Fin NBUF → Buf)) :=
  match order.find? (fun i => (buf i).dev == dev && (buf i).blockno == blockno) with
  | some i => .ok (i, Function.update buf i { buf i with refcnt := (buf i).refcnt + 1 })
  | none =>
    match order.reverse.find? (fun i => (buf i).refcnt == 0) with
    | some i => .ok (i, Function.update buf i ⟨dev, blockno, false, 1⟩)
    | none => .error "bget: no buffers"

/-- `bget` searches the list. -/
theorem Linked.bget_eq {c : BCache} {order : List (Fin NBUF)} (h : Linked c order) (dev blockno : Nat) :
    bget dev blockno c =
      (lruGet dev blockno c.buf order).map fun r => (r.1, { c with buf := r.2 }) := by
  unfold bget lruGet
  rw [h.walk_next, h.walk_prev]
  cases order.find? (fun i => (c.buf i).dev == dev && (c.buf i).blockno == blockno) with
  | some i => rfl
  | none =>
    cases order.reverse.find? (fun i => (c.buf i).refcnt == 0) with
    | some i => rfl
    | none => rfl

/-- The cache as the comment in `bio.c` describes it, with the callers' histories: the
buffers, and the list of them from the most recently used to the least. -/
structure LruSys where
  buf : Fin NBUF → Buf
  order : List (Fin NBUF)
  gets : Fin NBUF → Nat
  pins : Fin NBUF → Nat
  stamp : Fin NBUF → Nat
  clock : Nat

def LruSys.init : LruSys :=
  ⟨fun _ => ⟨0, 0, false, 0⟩, (List.finRange NBUF).reverse, fun _ => 0, fun _ => 0, fun i => i.val,
    NBUF⟩

/-- Record a release at `i` when its count has fallen to zero. -/
def LruSys.released (a : LruSys) (i : Fin NBUF) : LruSys :=
  if (a.buf i).refcnt = 0 then
    { a with stamp := Function.update a.stamp i a.clock, clock := a.clock + 1 }
  else a

/-- A call on the list: `brelse` of the last reference moves the buffer to the front. -/
def LruSys.step (held : Bool) (a : LruSys) : BEvent → Option LruSys
  | .bread dev blockno =>
    match lruGet dev blockno a.buf a.order with
    | .ok (i, buf) =>
      let buf := if !(buf i).valid then Function.update buf i { buf i with valid := true } else buf
      some { a with buf := buf, gets := Function.update a.gets i (a.gets i + 1) }
    | .error _ => none
  | .brelse i =>
    if a.gets i = 0 then none
    else
      let n := (a.buf i).refcnt - 1
      let a' : LruSys :=
        { a with
          buf := Function.update a.buf i { a.buf i with refcnt := n }
          order := if n = 0 then i :: a.order.erase i else a.order
          gets := Function.update a.gets i (a.gets i - 1) }
      some (a'.released i)
  | .bpin i =>
    some { a with
      buf := Function.update a.buf i { a.buf i with refcnt := (a.buf i).refcnt + 1 }
      pins := Function.update a.pins i (a.pins i + 1) }
  | .bunpin i =>
    if a.pins i = 0 ∨ (held ∧ a.gets i = 0) then none
    else
      let a' : LruSys :=
        { a with
          buf := Function.update a.buf i { a.buf i with refcnt := (a.buf i).refcnt - 1 }
          pins := Function.update a.pins i (a.pins i - 1) }
      some (a'.released i)

/-- The code's cache is the list `a`: the same buffers and histories, and links that run
through `a.order`. -/
structure Refines (s : BSys) (a : LruSys) : Prop where
  buf : s.cache.buf = a.buf
  linked : Linked s.cache a.order
  gets : s.gets = a.gets
  pins : s.pins = a.pins
  stamp : s.stamp = a.stamp
  clock : s.clock = a.clock

@[simp] theorem BCache.pushFront_buf (c : BCache) (x : BNode) : (c.pushFront x).buf = c.buf := rfl

@[simp] theorem BCache.unlink_buf (c : BCache) (x : BNode) : (c.unlink x).buf = c.buf := rfl

@[simp] theorem BCache.setBuf_buf (c : BCache) (i : Fin NBUF) (b : Buf) :
    (c.setBuf i b).buf = Function.update c.buf i b := rfl

theorem binit_buf : binit.buf = fun _ => ⟨0, 0, false, 0⟩ := by
  suffices h : ∀ (L : List (Fin NBUF)) (c : BCache),
      (L.foldl (fun c i => c.pushFront (.buf i)) c).buf = c.buf from h _ _
  intro L
  induction L with
  | nil => intro c; rfl
  | cons i L ih => intro c; rw [List.foldl_cons, ih, BCache.pushFront_buf]

theorem Refines.init : Refines BSys.init LruSys.init :=
  ⟨binit_buf, binit_linked, rfl, rfl, rfl, rfl⟩

theorem brelse_buf (i : Fin NBUF) (c : BCache) :
    (brelse i c).buf = Function.update c.buf i { c.buf i with refcnt := (c.buf i).refcnt - 1 } := by
  unfold brelse
  dsimp only
  split_ifs <;> rfl

theorem Refines.released {s : BSys} {a : LruSys} (h : Refines s a) (i : Fin NBUF) :
    Refines (s.released i) (a.released i) := by
  have hr : (s.cache.buf i).refcnt = (a.buf i).refcnt := by rw [h.buf]
  unfold BSys.released LruSys.released
  rw [hr]
  split_ifs
  · exact ⟨h.buf, h.linked, h.gets, h.pins, by rw [h.stamp, h.clock], by rw [h.clock]⟩
  · exact h

/-- Every call does on the code's cache what it does on the list. -/
theorem Refines.step {s : BSys} {a : LruSys} (h : Refines s a) (held : Bool) (e : BEvent) :
    Option.Rel Refines (s.step held e) (a.step held e) := by
  obtain ⟨hbuf, hlinked, hgets, hpins, hstamp, hclock⟩ := h
  cases e with
  | bread dev blockno =>
    simp only [BSys.step, LruSys.step, bread, hlinked.bget_eq, hbuf]
    cases hg : lruGet dev blockno a.buf a.order with
    | error e => exact Option.Rel.none
    | ok r =>
      obtain ⟨i, buf⟩ := r
      cases hv : (buf i).valid
      all_goals
        simp only [Except.map, hv, Bool.not_false, Bool.not_true, bind, Except.bind,
          pure, Except.pure, Bool.false_eq_true, ↓reduceIte]
      · -- an invalid buffer is read from the disk
        exact Option.Rel.some ⟨rfl, (hlinked.with_buf buf).setBuf i _, by rw [hgets], hpins, hstamp,
          hclock⟩
      · exact Option.Rel.some ⟨rfl, hlinked.with_buf buf, by rw [hgets], hpins, hstamp, hclock⟩
  | brelse i =>
    simp only [BSys.step, LruSys.step, hgets]
    by_cases hz : a.gets i = 0
    · rw [if_pos hz, if_pos hz]
      exact Option.Rel.none
    · rw [if_neg hz, if_neg hz]
      apply Option.Rel.some
      apply Refines.released
      refine ⟨?_, ?_, rfl, hpins, hstamp, hclock⟩
      · rw [brelse_buf, hbuf]
      · have hl := hlinked.after_brelse i
        rwa [hbuf] at hl
  | bpin i =>
    exact Option.Rel.some ⟨by simp [bpin, hbuf], hlinked.setBuf i _, hgets, by rw [hpins], hstamp,
      hclock⟩
  | bunpin i =>
    simp only [BSys.step, LruSys.step, hgets, hpins]
    split_ifs
    · exact Option.Rel.none
    · apply Option.Rel.some
      apply Refines.released
      exact ⟨by simp [bunpin, hbuf], hlinked.setBuf i _, rfl, rfl, hstamp, hclock⟩

end Xv6
