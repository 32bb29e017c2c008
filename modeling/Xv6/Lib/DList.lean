import Mathlib

/-!
# Circular doubly linked lists through a sentinel

Pointer fields `next` and `prev` on a type of nodes, and the list they describe: `Ring s l next
prev` says that from the sentinel `s` the `next` pointers run through `l` in order and back to
`s`, and the `prev` pointers run the other way. The two pointer surgeries of an intrusive LRU
list keep a ring a ring: unlinking a node (`Ring.unlink`) and inserting one right after the
sentinel (`Ring.pushFront`). A loop that follows `next` (or `prev`) from the sentinel until it
comes back finds what `List.find?` finds in `l` (or in its reverse).
-/

namespace DList

variable {α : Type} [DecidableEq α]

/-- The element after `x` in `l`; `d` when `x` is last or absent. -/
def succIn : List α → α → α → α
  | a :: b :: rest, x, d => if a = x then b else succIn (b :: rest) x d
  | _, _, d => d

/-- The element before `x` in `l`; `d` when `x` is first or absent. -/
def predIn : List α → α → α → α
  | a :: b :: rest, x, d => if b = x then a else predIn (b :: rest) x d
  | _, _, d => d

section Locate

variable {x d : α}

theorem succIn_cons_of_ne {a : α} (l : List α) (h : a ≠ x) : succIn (a :: l) x d = succIn l x d := by
  cases l with
  | nil => rfl
  | cons b rest => simp [succIn, h]

/-- After `x` comes the head of what follows it. -/
theorem succIn_append_cons {pre : List α} (rest : List α) (hx : x ∉ pre) :
    succIn (pre ++ x :: rest) x d = rest.headD d := by
  induction pre with
  | nil =>
    cases rest with
    | nil => rfl
    | cons b rest => simp [succIn]
  | cons a pre ih =>
    have ha : a ≠ x := fun h => hx (h ▸ List.mem_cons_self)
    rw [List.cons_append, succIn_cons_of_ne _ ha, ih (fun h => hx (List.mem_cons_of_mem a h))]

theorem predIn_of_not_mem {l : List α} (hx : x ∉ l) : predIn l x d = d := by
  induction l with
  | nil => rfl
  | cons a l ih =>
    cases l with
    | nil => rfl
    | cons b rest =>
      have hb : b ≠ x := fun h => hx (h ▸ List.mem_cons_of_mem a List.mem_cons_self)
      simp only [predIn, hb, if_false]
      exact ih (fun h => hx (List.mem_cons_of_mem a h))

/-- Before `x` comes the last of what precedes it. -/
theorem predIn_append_cons {pre rest : List α} (hx : x ∉ pre) (hr : x ∉ rest) :
    predIn (pre ++ x :: rest) x d = pre.getLastD d := by
  induction pre with
  | nil =>
    cases rest with
    | nil => rfl
    | cons b rest =>
      have hb : b ≠ x := fun h => hr (h ▸ List.mem_cons_self)
      simp only [List.nil_append, predIn, hb, if_false, List.getLastD_nil]
      exact predIn_of_not_mem hr
  | cons a pre ih =>
    have hx' : x ∉ pre := fun h => hx (List.mem_cons_of_mem a h)
    cases pre with
    | nil => simp [predIn]
    | cons b pre =>
      have hb : b ≠ x := fun h => hx' (h ▸ List.mem_cons_self)
      simp only [List.cons_append, predIn, hb, if_false] at ih ⊢
      rw [ih hx']
      simp only [List.getLastD_cons]

omit [DecidableEq α] in
theorem getLastD_append_cons (A : List α) (b : α) (B : List α) :
    (A ++ b :: B).getLastD d = B.getLastD b := by
  induction A generalizing d with
  | nil => simp only [List.nil_append, List.getLastD_cons]
  | cons a A ih => simp only [List.cons_append, List.getLastD_cons, ih]

omit [DecidableEq α] in
theorem getLastD_cons_mem (a : α) (l : List α) : (a :: l).getLastD d ∈ a :: l := by
  induction l generalizing a with
  | nil => exact List.mem_singleton_self a
  | cons b l ih =>
    rw [List.getLastD_cons]
    exact List.mem_cons_of_mem a (ih b)

end Locate

/-- `x->next->prev = x->prev; x->prev->next = x->next`: take `x` out of its list. -/
def unlink (next prev : α → α) (x : α) : (α → α) × (α → α) :=
  let prev' := Function.update prev (next x) (prev x)
  (Function.update next (prev' x) (next x), prev')

/-- `x->next = s->next; x->prev = s; s->next->prev = x; s->next = x`: put `x` right after
the sentinel `s`. -/
def pushFront (next prev : α → α) (s x : α) : (α → α) × (α → α) :=
  let next' := Function.update next x (next s)
  let prev' := Function.update (Function.update prev x s) (next' s) x
  (Function.update next' s x, prev')

/-- The loop that follows `f` from a node until it is back at the sentinel `s`, and stops at the
first node where `p` holds; it runs at most `fuel` rounds. -/
def walk (f : α → α) (s : α) (p : α → Bool) : Nat → α → Option α
  | 0, _ => none
  | fuel + 1, x => if x = s then none else if p x then some x else walk f s p fuel (f x)

/-- `next` and `prev` link the sentinel `s` and then `l` into one circular doubly linked list. -/
structure Ring (s : α) (l : List α) (next prev : α → α) : Prop where
  nodup : (s :: l).Nodup
  next_eq : ∀ x ∈ s :: l, next x = succIn (s :: l) x s
  prev_eq : ∀ x ∈ s :: l, prev x = predIn (s :: l) x (l.getLastD s)

section Ring

variable {s : α} {l : List α} {next prev : α → α}

/-- The sentinel alone, linked to itself. -/
theorem ring_nil (hn : next s = s) (hp : prev s = s) : Ring s [] next prev where
  nodup := List.nodup_singleton s
  next_eq := by
    intro x hx
    rw [List.mem_singleton.mp hx, hn]
    rfl
  prev_eq := by
    intro x hx
    rw [List.mem_singleton.mp hx, hp]
    rfl

/-- The node after `x`, for `x` in `l` with what follows it. -/
theorem Ring.next_of_split (r : Ring s l next prev) {pre rest : List α} {x : α}
    (hl : l = pre ++ x :: rest) : next x = rest.headD s := by
  have hnd := r.nodup
  rw [hl, ← List.cons_append] at hnd
  have hx : x ∉ s :: pre := (List.nodup_middle.mp hnd |> List.nodup_cons.mp).1 ∘
    (fun h => List.mem_append_left _ h)
  rw [r.next_eq x (by simp [hl]), hl, ← List.cons_append, succIn_append_cons _ hx]

/-- The node before `x`, for `x` in `l` with what precedes it. -/
theorem Ring.prev_of_split (r : Ring s l next prev) {pre rest : List α} {x : α}
    (hl : l = pre ++ x :: rest) : prev x = (s :: pre).getLastD s := by
  have hnd := r.nodup
  rw [hl, ← List.cons_append] at hnd
  have hmid := List.nodup_middle.mp hnd
  have hx : x ∉ s :: pre ++ rest := (List.nodup_cons.mp hmid).1
  rw [r.prev_eq x (by simp [hl]), hl, ← List.cons_append,
    predIn_append_cons (fun h => hx (List.mem_append_left _ h))
      (fun h => hx (List.mem_append_right _ h))]
  simp only [List.getLastD_cons]

theorem Ring.next_sentinel (r : Ring s l next prev) : next s = l.headD s := by
  rw [r.next_eq s List.mem_cons_self]
  exact succIn_append_cons l (List.not_mem_nil : s ∉ ([] : List α))

theorem Ring.prev_sentinel (r : Ring s l next prev) : prev s = l.getLastD s := by
  rw [r.prev_eq s List.mem_cons_self]
  exact predIn_append_cons (List.not_mem_nil : s ∉ ([] : List α)) (List.nodup_cons.mp r.nodup).1

/-- `x->next->prev == x`. -/
theorem Ring.prev_next (r : Ring s l next prev) {x : α} (hx : x ∈ s :: l) : prev (next x) = x := by
  rcases List.mem_cons.mp hx with rfl | hx
  · rw [r.next_sentinel]
    cases l with
    | nil => exact r.prev_sentinel
    | cons b l =>
      rw [List.headD_cons, r.prev_of_split (show b :: l = [] ++ b :: l from rfl)]
      rfl
  · obtain ⟨pre, rest, rfl⟩ := List.append_of_mem hx
    rw [r.next_of_split rfl]
    cases rest with
    | nil =>
      rw [List.headD_nil, r.prev_sentinel, getLastD_append_cons, List.getLastD_nil]
    | cons b rest =>
      rw [List.headD_cons,
        r.prev_of_split (show pre ++ x :: b :: rest = (pre ++ [x]) ++ b :: rest by simp),
        ← List.cons_append, getLastD_append_cons, List.getLastD_nil]

/-- `x->prev->next == x`. -/
theorem Ring.next_prev (r : Ring s l next prev) {x : α} (hx : x ∈ s :: l) : next (prev x) = x := by
  rcases List.mem_cons.mp hx with rfl | hx
  · rw [r.prev_sentinel]
    rcases List.eq_nil_or_concat l with rfl | ⟨L, b, rfl⟩
    · exact r.next_sentinel
    · rw [List.concat_eq_append] at r ⊢
      rw [getLastD_append_cons, List.getLastD_nil, r.next_of_split rfl]
      rfl
  · obtain ⟨pre, rest, rfl⟩ := List.append_of_mem hx
    rw [r.prev_of_split rfl]
    rcases List.eq_nil_or_concat pre with rfl | ⟨L, a, rfl⟩
    · rw [List.getLastD_cons, List.getLastD_nil, r.next_sentinel]
      rfl
    · rw [List.concat_eq_append] at r ⊢
      rw [← List.cons_append, getLastD_append_cons, List.getLastD_nil,
        r.next_of_split (show L ++ [a] ++ x :: rest = L ++ a :: (x :: rest) by simp)]
      rfl

/-- A ring is given by the sentinel's two pointers and, for each node, one place of it in `l`
with its neighbours there. -/
theorem ring_of_split (hnd : (s :: l).Nodup) (hsn : next s = l.headD s) (hsp : prev s = l.getLastD s)
    (h : ∀ y ∈ l, ∃ A B, l = A ++ y :: B ∧ next y = B.headD s ∧ prev y = (s :: A).getLastD s) :
    Ring s l next prev where
  nodup := hnd
  next_eq := by
    intro y hy
    rcases List.mem_cons.mp hy with rfl | hy
    · rw [hsn]
      exact (succIn_append_cons l (List.not_mem_nil : y ∉ ([] : List α))).symm
    · obtain ⟨A, B, hl, hn, -⟩ := h y hy
      have hnd' := hnd
      rw [hl, ← List.cons_append] at hnd'
      have hyA : y ∉ s :: A := fun hm => (List.nodup_cons.mp (List.nodup_middle.mp hnd')).1
        (List.mem_append_left _ hm)
      rw [hn, hl, ← List.cons_append, succIn_append_cons _ hyA]
  prev_eq := by
    intro y hy
    rcases List.mem_cons.mp hy with rfl | hy
    · rw [hsp]
      exact (predIn_append_cons (List.not_mem_nil : y ∉ ([] : List α))
        (List.nodup_cons.mp hnd).1).symm
    · obtain ⟨A, B, hl, -, hp⟩ := h y hy
      have hnd' := hnd
      rw [hl, ← List.cons_append] at hnd'
      have hy' := (List.nodup_cons.mp (List.nodup_middle.mp hnd')).1
      rw [hp, hl, ← List.cons_append, predIn_append_cons (fun hm => hy' (List.mem_append_left _ hm))
        (fun hm => hy' (List.mem_append_right _ hm))]
      simp only [List.getLastD_cons]

/-- Unlinking `x` leaves the ring of the other nodes. -/
theorem Ring.unlink {pre post : List α} {x : α} (r : Ring s (pre ++ x :: post) next prev) :
    Ring s (pre ++ post) (unlink next prev x).1 (unlink next prev x).2 := by
  have hnd := r.nodup
  -- the neighbours of `x`: `p` before it, `n` after it
  have hp : prev x = (s :: pre).getLastD s := r.prev_of_split rfl
  have hn : next x = post.headD s := r.next_of_split rfl
  have hnx : next x ≠ x := by
    rw [hn]
    cases post with
    | nil => grind
    | cons b post => grind
  simp only [DList.unlink, Function.update_of_ne hnx.symm]
  refine ring_of_split ?_ ?_ ?_ ?_
  · rw [← List.cons_append] at hnd ⊢
    exact (List.nodup_cons.mp (List.nodup_middle.mp hnd)).2
  · -- the sentinel's `next` moves on only when `x` was first
    rw [hp, hn]
    cases pre with
    | nil => rw [List.getLastD_cons, List.getLastD_nil, Function.update_self, List.nil_append]
    | cons a pre =>
      have hm := getLastD_cons_mem (d := s) a pre
      have hne : (s :: a :: pre).getLastD s ≠ s := by
        rw [List.getLastD_cons]
        grind
      rw [Function.update_of_ne hne.symm, r.next_sentinel]
      rfl
  · -- the sentinel's `prev` moves back only when `x` was last
    rw [hp, hn]
    cases post with
    | nil => rw [List.headD_nil, Function.update_self, List.getLastD_cons, List.append_nil]
    | cons b post =>
      have hne : s ≠ b := by grind
      rw [List.headD_cons, Function.update_of_ne hne, r.prev_sentinel, getLastD_append_cons, getLastD_append_cons,
        List.getLastD_cons]
  · intro y hy
    rw [hp, hn]
    rcases List.mem_append.mp hy with hy | hy
    · -- `y` before `x`: only the last of them, `x`'s predecessor, gets a new `next`
      obtain ⟨C, D, rfl⟩ := List.append_of_mem hy
      have hsplit : C ++ y :: D ++ x :: post = C ++ y :: (D ++ x :: post) := by simp
      have hny : post.headD s ≠ y := by
        cases post with
        | nil => grind
        | cons b post => grind
      refine ⟨C, D ++ post, by simp, ?_, ?_⟩
      · cases D with
        | nil =>
          rw [List.getLastD_cons, getLastD_append_cons, List.getLastD_nil, Function.update_self]
          rfl
        | cons d D =>
          have hm := getLastD_cons_mem (d := y) d D
          have hne : y ≠ (s :: (C ++ y :: d :: D)).getLastD s := by
            rw [List.getLastD_cons, getLastD_append_cons]
            grind
          rw [Function.update_of_ne hne, r.next_of_split hsplit]
          rfl
      · rw [Function.update_of_ne hny.symm, r.prev_of_split hsplit]
    · -- `y` after `x`: only the first of them, `x`'s successor, gets a new `prev`
      obtain ⟨C, D, rfl⟩ := List.append_of_mem hy
      have hsplit : pre ++ x :: (C ++ y :: D) = pre ++ x :: C ++ y :: D := by simp
      have hm := getLastD_cons_mem (d := s) s pre
      have hne : y ≠ (s :: pre).getLastD s := by grind
      refine ⟨pre ++ C, D, by simp, ?_, ?_⟩
      · rw [Function.update_of_ne hne, r.next_of_split hsplit]
      · cases C with
        | nil =>
          rw [List.nil_append, List.headD_cons, Function.update_self, List.append_nil]
        | cons c C =>
          have hcy : y ≠ c := by grind
          rw [List.cons_append, List.headD_cons, Function.update_of_ne hcy, r.prev_of_split hsplit,
            List.getLastD_cons, List.getLastD_cons, getLastD_append_cons, getLastD_append_cons,
            List.getLastD_cons]

/-- Inserting a new node `x` after the sentinel makes it the first of the ring. -/
theorem Ring.pushFront {x : α} (r : Ring s l next prev) (hx : x ∉ s :: l) :
    Ring s (x :: l) (pushFront next prev s x).1 (pushFront next prev s x).2 := by
  have hnd := r.nodup
  have hxs : x ≠ s := fun h => hx (h ▸ List.mem_cons_self)
  have hsn := r.next_sentinel
  -- the old first node, or the sentinel itself when the ring was empty
  have hfirst : l.headD s ≠ x := by
    cases l with
    | nil => exact hxs.symm
    | cons b l => grind
  simp only [DList.pushFront, Function.update_of_ne hxs.symm]
  refine ring_of_split (by grind) ?_ ?_ ?_
  · rw [Function.update_self]
    rfl
  · rw [hsn]
    cases l with
    | nil => rw [List.headD_nil, Function.update_self]; rfl
    | cons b l =>
      have hbs : s ≠ b := by grind
      rw [List.headD_cons, Function.update_of_ne hbs, Function.update_of_ne hxs.symm, r.prev_sentinel]
      simp only [List.getLastD_cons]
  · intro y hy
    rw [hsn]
    rcases List.mem_cons.mp hy with rfl | hy
    · refine ⟨[], l, rfl, ?_, ?_⟩
      · rw [Function.update_of_ne hxs, Function.update_self]
      · rw [Function.update_of_ne hfirst.symm, Function.update_self]
        rfl
    · obtain ⟨C, D, rfl⟩ := List.append_of_mem hy
      have hys : y ≠ s := by grind
      have hyx : y ≠ x := by grind
      refine ⟨x :: C, D, rfl, ?_, ?_⟩
      · rw [Function.update_of_ne hys, Function.update_of_ne hyx, r.next_of_split rfl]
      · cases C with
        | nil => rw [List.nil_append, List.headD_cons, Function.update_self]; rfl
        | cons c C =>
          have hyc : y ≠ c := by grind
          rw [List.cons_append, List.headD_cons, Function.update_of_ne hyc, Function.update_of_ne hyx,
            r.prev_of_split rfl]
          simp only [List.getLastD_cons]

/-- Following `next` from the sentinel finds the first node of `l` where `p` holds. -/
theorem Ring.walk_next (r : Ring s l next prev) (p : α → Bool) {fuel : Nat} (hf : l.length < fuel) :
    walk next s p fuel (next s) = l.find? p := by
  -- the walk from each suffix of `l`, by induction on the suffix
  suffices h : ∀ suf pre fuel, l = pre ++ suf → suf.length < fuel →
      walk next s p fuel (suf.headD s) = suf.find? p by
    rw [r.next_sentinel]
    exact h l [] fuel rfl hf
  intro suf
  induction suf with
  | nil =>
    intro pre fuel _ hf
    obtain ⟨k, rfl⟩ : ∃ k, fuel = k + 1 := ⟨fuel - 1, by omega⟩
    simp [walk]
  | cons y suf ih =>
    intro pre fuel hl hf
    obtain ⟨k, rfl⟩ : ∃ k, fuel = k + 1 := ⟨fuel - 1, by simp at hf; omega⟩
    have hys : y ≠ s := by
      have := r.nodup
      rw [hl] at this
      grind
    by_cases hp : p y
    · simp [walk, hys, hp]
    · have hnext : next y = suf.headD s := r.next_of_split hl
      have hrest := ih (pre ++ [y]) k (by simp [hl]) (by simp at hf; omega)
      simp only [List.headD_cons, walk, hys, if_false, hp, Bool.false_eq_true, hnext]
      rw [List.find?_cons_of_neg (by simpa using hp)]
      simpa using hrest

/-- Following `prev` from the sentinel finds the last node of `l` where `p` holds. -/
theorem Ring.walk_prev (r : Ring s l next prev) (p : α → Bool) {fuel : Nat} (hf : l.length < fuel) :
    walk prev s p fuel (prev s) = l.reverse.find? p := by
  -- the walk from the end of each prefix of `l`, by induction on the prefix from its end
  suffices h : ∀ pre suf fuel, l = pre ++ suf → pre.length < fuel →
      walk prev s p fuel (pre.getLastD s) = pre.reverse.find? p by
    rw [r.prev_sentinel]
    exact h l [] fuel (by simp) hf
  intro pre
  induction pre using List.reverseRecOn with
  | nil =>
    intro suf fuel _ hf
    obtain ⟨k, rfl⟩ : ∃ k, fuel = k + 1 := ⟨fuel - 1, by omega⟩
    simp [walk]
  | append_singleton pre y ih =>
    intro suf fuel hl hf
    obtain ⟨k, rfl⟩ : ∃ k, fuel = k + 1 := ⟨fuel - 1, by simp at hf; omega⟩
    have hl' : l = pre ++ y :: suf := by simp [hl]
    have hys : y ≠ s := by
      have := r.nodup
      rw [hl'] at this
      grind
    have hlast : (pre ++ [y]).getLastD s = y := by
      rw [getLastD_append_cons, List.getLastD_nil]
    rw [hlast]
    by_cases hp : p y
    · simp [walk, hys, hp]
    · have hprev : prev y = pre.getLastD s := by
        rw [r.prev_of_split hl', List.getLastD_cons]
      have hrest := ih (y :: suf) k hl' (by simp at hf; omega)
      simp only [walk, hys, if_false, hp, Bool.false_eq_true, hprev]
      rw [List.reverse_append, List.reverse_singleton, List.singleton_append,
        List.find?_cons_of_neg (by simpa using hp)]
      exact hrest

end Ring

end DList
