import Xv6.Log

/-!
# Admission to the log

`begin_op` admits an operation only while `log.lh.n`, plus `MAXOPBLOCKS` for every operation
under way and the new one, fits in `LOGBLOCKS`. The invariant behind it counts the room each
operation under way may still claim, `MAXOPBLOCKS` less the distinct blocks it has written
(`reserved`): the header plus that room never exceeds `LOGBLOCKS` (`LogInv.room`). So a block
new to its operation always finds room, the header never names a block twice, each entry
holds one pin until `commit` drops it, and `end_op` never finds a commit running.

`log_write` tests `log.lh.n >= LOGBLOCKS` before it looks for an entry to absorb into. When
the operations under way have filled the log between them, an operation that writes one of
its blocks again panics, although the write needs no new entry
(`log_write_absorbed_panics`).
-/

namespace Xv6

/-! ## Operations under way -/

theorem lookup_eq_none_iff (l : List (Nat × List Nat)) (o : Nat) :
    l.lookup o = none ↔ ∀ p ∈ l, p.1 ≠ o := by
  induction l with
  | nil => simp
  | cons p l ih =>
    obtain ⟨k, w⟩ := p
    by_cases hk : o = k
    · subst hk
      simp [List.lookup]
    · have hb : (o == k) = false := by simpa using hk
      simp only [List.lookup, hb, ih, List.mem_cons, forall_eq_or_imp]
      exact ⟨fun h => ⟨Ne.symm hk, h⟩, fun h => h.2⟩

theorem mem_of_lookup {l : List (Nat × List Nat)} {o : Nat} {w : List Nat}
    (h : l.lookup o = some w) : (o, w) ∈ l := by
  induction l with
  | nil => simp at h
  | cons p l ih =>
    obtain ⟨k, w'⟩ := p
    by_cases hk : o = k
    · subst hk
      simp only [List.lookup, beq_self_eq_true, Option.some.injEq] at h
      simp [h]
    · have hb : (o == k) = false := by simpa using hk
      simp only [List.lookup, hb] at h
      exact List.mem_cons_of_mem _ (ih h)

/-- With distinct operation numbers, `lookup` finds the only entry of `o`. -/
theorem eq_of_lookup {l : List (Nat × List Nat)} (hnd : (l.map Prod.fst).Nodup) {o : Nat}
    {w w' : List Nat} (h : l.lookup o = some w) (hw' : (o, w') ∈ l) : w' = w := by
  induction l with
  | nil => cases hw'
  | cons p l ih =>
    obtain ⟨k, v⟩ := p
    simp only [List.map_cons, List.nodup_cons, List.mem_map] at hnd
    by_cases hk : o = k
    · subst hk
      simp only [List.lookup, beq_self_eq_true, Option.some.injEq] at h
      rcases List.mem_cons.mp hw' with he | hw'
      · rw [← h]
        exact (Prod.mk.inj he).2
      · exact absurd ⟨(o, w'), hw', rfl⟩ hnd.1
    · have hb : (o == k) = false := by simpa using hk
      simp only [List.lookup, hb] at h
      rcases List.mem_cons.mp hw' with he | hw'
      · exact absurd (Prod.mk.inj he).1 hk
      · exact ih hnd.2 h hw'

/-- The update of the operations' blocks made by `log_write` from operation `o`. -/
theorem map_fst_write (l : List (Nat × List Nat)) (o b : Nat) :
    (l.map fun p => if p.1 = o then (p.1, p.2.insert b) else p).map Prod.fst = l.map Prod.fst := by
  rw [List.map_map]
  congr 1
  funext p
  simp only [Function.comp_apply]
  split_ifs <;> rfl

theorem mem_write {l : List (Nat × List Nat)} {o b : Nat} {p : Nat × List Nat}
    (hp : p ∈ l.map fun p => if p.1 = o then (p.1, p.2.insert b) else p) :
    ∃ q ∈ l, (q.1 = o ∧ p = (o, q.2.insert b)) ∨ (q.1 ≠ o ∧ p = q) := by
  obtain ⟨q, hq, rfl⟩ := List.mem_map.mp hp
  refine ⟨q, hq, ?_⟩
  split_ifs with h
  · exact .inl ⟨h, by rw [h]⟩
  · exact .inr ⟨h, rfl⟩

/-- A block the operation has already written leaves the list as it is. -/
theorem map_write_of_mem {l : List (Nat × List Nat)} (hnd : (l.map Prod.fst).Nodup) {o b : Nat}
    {w : List Nat} (hlk : l.lookup o = some w) (hb : b ∈ w) :
    (l.map fun p => if p.1 = o then (p.1, p.2.insert b) else p) = l := by
  conv_rhs => rw [← List.map_id l]
  apply List.map_congr_left
  intro p hp
  split_ifs with hpo
  · obtain ⟨k, w'⟩ := p
    simp only at hpo
    subst hpo
    have hw : w' = w := eq_of_lookup hnd hlk hp
    subst hw
    simp [List.insert_of_mem hb]
  · rfl

theorem length_filter_ne {l : List (Nat × List Nat)} (hnd : (l.map Prod.fst).Nodup) {o : Nat}
    {w : List Nat} (hmem : (o, w) ∈ l) : (l.filter fun p => p.1 ≠ o).length + 1 = l.length := by
  induction l with
  | nil => cases hmem
  | cons p l ih =>
    simp only [List.map_cons, List.nodup_cons, List.mem_map] at hnd
    rcases List.mem_cons.mp hmem with rfl | hmem
    · -- no other entry has number `o`
      have hrest : (l.filter fun p => p.1 ≠ o) = l := by
        rw [List.filter_eq_self]
        intro q hq
        have hq : q.1 ≠ o := fun e => hnd.1 ⟨q, hq, e⟩
        simpa using hq
      rw [List.filter_cons_of_neg (by simp), hrest, List.length_cons]
    · by_cases hp : p.1 = o
      · exact absurd ⟨(o, w), hmem, by simp [hp]⟩ hnd.1
      · rw [List.filter_cons_of_pos (by simpa using hp), List.length_cons, List.length_cons,
          ih hnd.2 hmem]

/-! ## What each call does -/

theorem set_idxOf_self {l : List Nat} {b : Nat} (h : b ∈ l) : l.set (l.idxOf b) b = l := by
  have hi : l.idxOf b < l.length := List.idxOf_lt_length_of_mem h
  calc l.set (l.idxOf b) b = l.set (l.idxOf b) l[l.idxOf b] := by rw [List.getElem_idxOf hi]
    _ = l := List.set_getElem_self hi

theorem beginOp_eq_some {l l' : Log} (h : beginOp l = some l') :
    l.committing = false ∧ (l.lh.length : Int) + (l.outstanding + 1) * MAXOPBLOCKS ≤ LOGBLOCKS ∧
      l' = { l with outstanding := l.outstanding + 1 } := by
  unfold beginOp at h
  split_ifs at h with hc hroom
  cases h
  exact ⟨by simpa using hc, by omega, rfl⟩

/-- `log_write` returns when the log has room and an operation is under way; it adds a new
entry, pinned, unless the block is in the header already. -/
theorem logWrite_eq_ok {l l' : Log} {b : Nat} (h : logWrite l b = .ok l') :
    l.lh.length < LOGBLOCKS ∧ 1 ≤ l.outstanding ∧
      l' = if b ∈ l.lh then l
        else { l with lh := l.lh ++ [b], pins := Function.update l.pins b (l.pins b + 1) } := by
  simp only [logWrite] at h
  split_ifs at h with hfull hout hnew
  · cases h
    have hb : b ∉ l.lh := List.idxOf_eq_length_iff.mp hnew
    exact ⟨by omega, by omega, by rw [if_neg hb]⟩
  · cases h
    have hb : b ∈ l.lh := by
      by_contra hb
      exact hnew (List.idxOf_eq_length_iff.mpr hb)
    refine ⟨by omega, by omega, ?_⟩
    rw [if_pos hb, set_idxOf_self hb]

theorem endOp_eq_ok {l l' : Log} {c : Bool} (h : endOp l = .ok (l', c)) :
    l.committing = false ∧ l'.outstanding = l.outstanding - 1 ∧ l'.lh = l.lh ∧
      l'.pins = l.pins ∧ (l'.committing = true → l.outstanding - 1 = 0) := by
  simp only [endOp] at h
  split_ifs at h with hc hz
  · cases h
    exact ⟨by simpa using hc, rfl, rfl, rfl, fun _ => hz⟩
  · cases h
    exact ⟨by simpa using hc, rfl, rfl, rfl, fun h => absurd h (by simpa using hc)⟩

/-- `install_trans(0)` drops one pin per entry. -/
theorem unpinAll_apply (pins : Nat → Int) (l : List Nat) (b : Nat) :
    unpinAll pins l b = pins b - l.count b := by
  induction l generalizing pins with
  | nil => simp [unpinAll]
  | cons c rest ih =>
    rw [unpinAll, ih, List.count_cons]
    by_cases hb : b = c
    · subst hb
      simp
      omega
    · simp [Function.update_of_ne hb, Ne.symm hb]

theorem commitDone_lh (l : Log) : (commitDone l).lh = [] := by
  simp only [commitDone]
  split_ifs with h
  · rfl
  · exact List.eq_nil_of_length_eq_zero (by omega)

theorem lstep_iff {s t : LogSys} {e : LogEvent} :
    LStep s e t ↔ s.allowed e = true ∧ s.step e = .ok t := by
  unfold LStep LogSys.next
  split_ifs with h
  · cases hs : s.step e <;> simp [h, Except.toOption]
  · simp [h]

/-! ## The reservation -/

/-- The room the operations under way may still claim in the log. -/
def reserved (active : List (Nat × List Nat)) : Nat :=
  (active.map fun p => MAXOPBLOCKS - p.2.length).sum

theorem reserved_append_new (l : List (Nat × List Nat)) (o : Nat) :
    reserved (l ++ [(o, [])]) = reserved l + MAXOPBLOCKS := by
  simp [reserved]

theorem reserved_le_length (l : List (Nat × List Nat)) :
    reserved l ≤ l.length * MAXOPBLOCKS := by
  induction l with
  | nil => simp [reserved]
  | cons p l ih =>
    simp only [reserved, List.map_cons, List.sum_cons, List.length_cons] at ih ⊢
    rw [Nat.succ_mul]
    omega

@[simp]
theorem reserved_cons (p : Nat × List Nat) (l : List (Nat × List Nat)) :
    reserved (p :: l) = MAXOPBLOCKS - p.2.length + reserved l := rfl

theorem reserved_filter_le (l : List (Nat × List Nat)) (o : Nat) :
    reserved (l.filter fun p => p.1 ≠ o) ≤ reserved l := by
  induction l with
  | nil => simp [reserved]
  | cons p l ih =>
    by_cases hp : p.1 = o
    · rw [List.filter_cons_of_neg (by simpa using hp), reserved_cons]
      omega
    · rw [List.filter_cons_of_pos (by simpa using hp), reserved_cons, reserved_cons]
      omega

theorem le_reserved {l : List (Nat × List Nat)} {p : Nat × List Nat} (hp : p ∈ l) :
    MAXOPBLOCKS - p.2.length ≤ reserved l := by
  induction l with
  | nil => cases hp
  | cons q l ih =>
    rw [reserved_cons]
    rcases List.mem_cons.mp hp with rfl | hp
    · omega
    · have := ih hp
      omega

/-- A block new to operation `o` uses one unit of its room. -/
theorem reserved_write {l : List (Nat × List Nat)} (hnd : (l.map Prod.fst).Nodup) {o b : Nat}
    {w : List Nat} (hlk : l.lookup o = some w) (hb : b ∉ w) (hw : w.length < MAXOPBLOCKS) :
    reserved (l.map fun p => if p.1 = o then (p.1, p.2.insert b) else p) + 1 = reserved l := by
  induction l with
  | nil => simp at hlk
  | cons p l ih =>
    obtain ⟨k, v⟩ := p
    simp only [List.map_cons, List.nodup_cons, List.mem_map] at hnd
    by_cases hk : k = o
    · subst hk
      simp only [List.lookup, beq_self_eq_true, Option.some.injEq] at hlk
      subst hlk
      -- the rest of the list has no entry of `k`
      have hrest : (l.map fun p => if p.1 = k then (p.1, p.2.insert b) else p) = l := by
        conv_rhs => rw [← List.map_id l]
        apply List.map_congr_left
        intro q hq
        rw [if_neg (fun e => hnd.1 ⟨q, hq, e⟩)]
        rfl
      simp only [reserved, List.map_cons, if_pos, List.sum_cons] at hrest ⊢
      rw [hrest, List.length_insert_of_not_mem hb]
      omega
    · have hb' : (o == k) = false := by simpa using Ne.symm hk
      simp only [List.lookup, hb'] at hlk
      have := ih hnd.2 hlk
      simp only [reserved, List.map_cons, List.sum_cons, if_neg hk] at this ⊢
      omega

/-! ## The invariant -/

/-- What holds of the log and the operations under way in every reachable state. -/
structure LogInv (s : LogSys) : Prop where
  outstanding_eq : s.log.outstanding = s.active.length
  ids_nodup : (s.active.map Prod.fst).Nodup
  committing_idle : s.log.committing = true → s.active = []
  lh_nodup : s.log.lh.Nodup
  written_logged : ∀ p ∈ s.active, ∀ b ∈ p.2, b ∈ s.log.lh
  written_nodup : ∀ p ∈ s.active, p.2.Nodup
  written_le : ∀ p ∈ s.active, p.2.length ≤ MAXOPBLOCKS
  room : s.log.lh.length + reserved s.active ≤ LOGBLOCKS
  pins_eq : ∀ b, s.log.pins b = if b ∈ s.log.lh then 1 else 0

theorem LogInv.init : LogInv LogSys.init where
  outstanding_eq := rfl
  ids_nodup := List.nodup_nil
  committing_idle := by simp [LogSys.init, Log.init]
  lh_nodup := List.nodup_nil
  written_logged := by simp [LogSys.init]
  written_nodup := by simp [LogSys.init]
  written_le := by simp [LogSys.init]
  room := by simp [LogSys.init, Log.init, reserved, LOGBLOCKS, MAXOPBLOCKS]
  pins_eq := by simp [LogSys.init, Log.init]

/-! ## One call -/

section Calls

variable {s t : LogSys} {o b : Nat}

theorem allowed_logWrite (h : s.allowed (.logWrite o b) = true) :
    ∃ w, s.active.lookup o = some w ∧ (b ∈ w ∨ w.length < MAXOPBLOCKS) := by
  simp only [LogSys.allowed] at h
  split at h
  · rename_i w hw
    exact ⟨w, hw, by simpa using h⟩
  · cases h

theorem allowed_endOp (h : s.allowed (.endOp o) = true) : ∃ w, s.active.lookup o = some w := by
  simp only [LogSys.allowed, Option.isSome_iff_exists] at h
  exact h

theorem step_beginOp (h : s.step (.beginOp o) = .ok t) :
    t = s ∨ ∃ l, beginOp s.log = some l ∧ t = { log := l, active := s.active ++ [(o, [])] } := by
  simp only [LogSys.step] at h
  split at h
  · rename_i l hl
    cases h
    exact .inr ⟨l, hl, rfl⟩
  · cases h
    exact .inl rfl

theorem step_logWrite (h : s.step (.logWrite o b) = .ok t) :
    ∃ l, logWrite s.log b = .ok l ∧
      t = { log := l, active := s.active.map fun p => if p.1 = o then (p.1, p.2.insert b) else p } := by
  cases hl : logWrite s.log b with
  | error e => simp [LogSys.step, hl] at h
  | ok l =>
    simp only [LogSys.step, hl] at h
    cases h
    exact ⟨l, rfl, rfl⟩

theorem step_endOp (h : s.step (.endOp o) = .ok t) :
    ∃ l c, endOp s.log = .ok (l, c) ∧ t = { log := l, active := s.active.filter fun p => p.1 ≠ o } := by
  cases hl : endOp s.log with
  | error e => simp [LogSys.step, hl] at h
  | ok r =>
    obtain ⟨l, c⟩ := r
    simp only [LogSys.step, hl] at h
    cases h
    exact ⟨l, c, rfl, rfl⟩

end Calls

/-! ## The invariant is kept by every call -/

section Steps

variable {s : LogSys}

theorem LogInv.beginOp (hi : LogInv s) {o : Nat} (hnew : s.active.lookup o = none) {l : Log}
    (h : Xv6.beginOp s.log = some l) : LogInv { log := l, active := s.active ++ [(o, [])] } := by
  obtain ⟨hc, hroom, rfl⟩ := beginOp_eq_some h
  have hfresh : ∀ p ∈ s.active, p.1 ≠ o := (lookup_eq_none_iff _ _).mp hnew
  -- every fact about the entries holds of the new, empty one
  have hentry : ∀ {P : Nat × List Nat → Prop}, (∀ p ∈ s.active, P p) → P (o, []) →
      ∀ p ∈ s.active ++ [(o, [])], P p := by
    intro P hold hnew p hp
    rcases List.mem_append.mp hp with hp | hp
    · exact hold p hp
    · rw [List.mem_singleton.mp hp]
      exact hnew
  have hres := reserved_le_length s.active
  have hout := hi.outstanding_eq
  refine ⟨by simp [hout], ?_, by simp [hc], hi.lh_nodup,
    hentry hi.written_logged (by simp), hentry hi.written_nodup List.nodup_nil,
    hentry hi.written_le (by simp), ?_, hi.pins_eq⟩
  · rw [List.map_append, List.nodup_append]
    refine ⟨hi.ids_nodup, by simp, fun x hx y hy => ?_⟩
    obtain ⟨p, hp, rfl⟩ := List.mem_map.mp hx
    rw [List.map_singleton, List.mem_singleton] at hy
    rw [hy]
    exact hfresh p hp
  · -- the admission test, with `outstanding` operations each holding at most `MAXOPBLOCKS`
    dsimp only
    rw [reserved_append_new]
    simp only [hout, MAXOPBLOCKS, LOGBLOCKS] at hroom hres ⊢
    omega

theorem LogInv.logWrite (hi : LogInv s) {o b : Nat} {w : List Nat}
    (hw : s.active.lookup o = some w) (hallow : b ∈ w ∨ w.length < MAXOPBLOCKS) {l : Log}
    (h : Xv6.logWrite s.log b = .ok l) :
    LogInv { log := l, active := s.active.map fun p => if p.1 = o then (p.1, p.2.insert b) else p } := by
  obtain ⟨hlt, -, rfl⟩ := logWrite_eq_ok h
  by_cases hbw : b ∈ w
  · -- an absorbed write by an operation that wrote the block before changes nothing
    have hbl : b ∈ s.log.lh := hi.written_logged _ (mem_of_lookup hw) b hbw
    rw [if_pos hbl, map_write_of_mem hi.ids_nodup hw hbw]
    exact hi
  have hwlt : w.length < MAXOPBLOCKS := hallow.resolve_left hbw
  -- what the new list of operations satisfies, whatever happens to the header
  have hlen : (s.active.map fun p => if p.1 = o then (p.1, p.2.insert b) else p).length =
      s.active.length := List.length_map _
  have hids := map_fst_write s.active o b
  have hres := reserved_write hi.ids_nodup hw hbw hwlt
  have hroom := hi.room
  have hwritten : ∀ p ∈ s.active.map (fun p => if p.1 = o then (p.1, p.2.insert b) else p),
      (∀ c ∈ p.2, c = b ∨ c ∈ s.log.lh) ∧ p.2.Nodup ∧ p.2.length ≤ MAXOPBLOCKS := by
    intro p hp
    obtain ⟨q, hq, ⟨hqo, rfl⟩ | ⟨-, rfl⟩⟩ := mem_write hp
    · have hqw : q.2 = w := eq_of_lookup hi.ids_nodup hw (by rw [← hqo]; exact hq)
      have hnd := hi.written_nodup q hq
      have hlogged := hi.written_logged q hq
      rw [hqw] at hnd hlogged ⊢
      rw [List.insert_of_not_mem hbw]
      refine ⟨fun c hc => ?_, List.nodup_cons.mpr ⟨hbw, hnd⟩, by simp; omega⟩
      rcases List.mem_cons.mp hc with rfl | hc
      · exact .inl rfl
      · exact .inr (hlogged c hc)
    · exact ⟨fun c hc => .inr (hi.written_logged p hq c hc), hi.written_nodup p hq,
        hi.written_le p hq⟩
  have hidle : s.log.committing = true →
      (s.active.map fun p => if p.1 = o then (p.1, p.2.insert b) else p) = [] := by
    intro hc
    rw [hi.committing_idle hc]
    rfl
  by_cases hbl : b ∈ s.log.lh
  · -- absorbed into an entry another operation made
    rw [if_pos hbl]
    refine ⟨by rw [hlen]; exact hi.outstanding_eq, by rw [hids]; exact hi.ids_nodup, hidle,
      hi.lh_nodup, fun p hp c hc => ?_, fun p hp => (hwritten p hp).2.1,
      fun p hp => (hwritten p hp).2.2, ?_, hi.pins_eq⟩
    · rcases (hwritten p hp).1 c hc with rfl | hc
      · exact hbl
      · exact hc
    · dsimp only
      omega
  · -- a new entry, pinned once
    rw [if_neg hbl]
    refine ⟨by rw [hlen]; exact hi.outstanding_eq, by rw [hids]; exact hi.ids_nodup, hidle, ?_,
      fun p hp c hc => ?_, fun p hp => (hwritten p hp).2.1, fun p hp => (hwritten p hp).2.2, ?_,
      fun c => ?_⟩
    · rw [List.nodup_append]
      refine ⟨hi.lh_nodup, by simp, fun x hx y hy => ?_⟩
      rw [List.mem_singleton.mp hy]
      rintro rfl
      exact hbl hx
    · rcases (hwritten p hp).1 c hc with rfl | hc
      · simp
      · simp [hc]
    · dsimp only
      rw [List.length_append, List.length_singleton]
      omega
    · by_cases hcb : c = b
      · subst hcb
        simp [hi.pins_eq c, hbl]
      · simp [hi.pins_eq c, hcb]

theorem LogInv.endOp (hi : LogInv s) {o : Nat} {w : List Nat} (hw : s.active.lookup o = some w)
    {l : Log} {c : Bool} (h : Xv6.endOp s.log = .ok (l, c)) :
    LogInv { log := l, active := s.active.filter fun p => p.1 ≠ o } := by
  obtain ⟨-, hout, hlh, hpins, hcomm⟩ := endOp_eq_ok h
  have hlen := length_filter_ne hi.ids_nodup (mem_of_lookup hw)
  have hsub : (s.active.filter fun p => p.1 ≠ o).Sublist s.active := List.filter_sublist
  have hmem : ∀ p ∈ s.active.filter (fun p => p.1 ≠ o), p ∈ s.active :=
    fun p hp => List.mem_of_mem_filter hp
  have hout' := hi.outstanding_eq
  refine ⟨?_, hi.ids_nodup.sublist (hsub.map _), fun hc => ?_, hlh ▸ hi.lh_nodup,
    fun p hp => hlh ▸ hi.written_logged p (hmem p hp), fun p hp => hi.written_nodup p (hmem p hp),
    fun p hp => hi.written_le p (hmem p hp), ?_, fun c => by rw [hpins, hlh]; exact hi.pins_eq c⟩
  · dsimp only
    rw [hout, hout']
    omega
  · -- the last operation ended: none is left
    have h0 := hcomm hc
    rw [hout'] at h0
    dsimp only
    exact List.eq_nil_of_length_eq_zero (by omega)
  · have := reserved_filter_le s.active o
    have := hi.room
    dsimp only
    rw [hlh]
    omega

theorem LogInv.commit (hi : LogInv s) (hc : s.log.committing = true) :
    LogInv { s with log := commitDone s.log } := by
  have hidle := hi.committing_idle hc
  have hout : (commitDone s.log).outstanding = s.log.outstanding := by
    simp only [commitDone]
    split_ifs <;> rfl
  refine ⟨by rw [hout, hi.outstanding_eq, hidle], by simp [hidle], fun _ => hidle, ?_,
    by simp [hidle], by simp [hidle], by simp [hidle], ?_, fun c => ?_⟩
  · rw [commitDone_lh]
    exact List.nodup_nil
  · simp [commitDone_lh, hidle, reserved, LOGBLOCKS]
  · -- `install_trans(0)` drops the one pin each entry holds
    have hpins : (commitDone s.log).pins c = 0 := by
      simp only [commitDone]
      split_ifs with hne
      · show unpinAll s.log.pins s.log.lh c = 0
        rw [unpinAll_apply, hi.pins_eq c, List.Nodup.count hi.lh_nodup]
        split_ifs <;> rfl
      · have hnil : s.log.lh = [] := List.eq_nil_of_length_eq_zero (by omega)
        show s.log.pins c = 0
        simp [hi.pins_eq c, hnil]
    simp [commitDone_lh, hpins]

theorem LogInv.step (hi : LogInv s) {e : LogEvent} {t : LogSys} (h : LStep s e t) : LogInv t := by
  obtain ⟨ha, hs⟩ := lstep_iff.mp h
  cases e with
  | beginOp o =>
    rcases step_beginOp hs with rfl | ⟨l, hl, rfl⟩
    · exact hi
    · exact hi.beginOp (by simpa [LogSys.allowed] using ha) hl
  | logWrite o b =>
    obtain ⟨w, hw, hallow⟩ := allowed_logWrite ha
    obtain ⟨l, hl, rfl⟩ := step_logWrite hs
    exact hi.logWrite hw hallow hl
  | endOp o =>
    obtain ⟨w, hw⟩ := allowed_endOp ha
    obtain ⟨l, c, hl, rfl⟩ := step_endOp hs
    exact hi.endOp hw hl
  | commit =>
    cases hs
    exact hi.commit (by simpa [LogSys.allowed] using ha)

end Steps

/-- Every state the log reaches under its contract satisfies the invariant. -/
theorem LogInv.reachable {evs : List LogEvent} {s : LogSys}
    (h : Trace.Run LStep LogSys.init evs s) : LogInv s :=
  Trace.Run.invariant LogInv.init (fun _ _ _ hi hs => hi.step hs) h

/-! ## Which calls panic -/

theorem logWrite_eq_error {l : Log} {b : Nat} {e : String} (h : logWrite l b = .error e) :
    (LOGBLOCKS ≤ l.lh.length ∧ e = "too big a transaction") ∨
      (l.outstanding < 1 ∧ e = "log_write outside of trans") := by
  simp only [logWrite] at h
  split_ifs at h with hfull hout
  · cases h
    exact .inl ⟨hfull, rfl⟩
  · cases h
    exact .inr ⟨hout, rfl⟩

/-- `log_write` returns on a log with room, inside a transaction. -/
theorem logWrite_ok_of_room {l : Log} (b : Nat) (hroom : l.lh.length < LOGBLOCKS)
    (hout : 1 ≤ l.outstanding) : ∃ l', logWrite l b = .ok l' := by
  simp only [logWrite, if_neg (Nat.not_le.mpr hroom), if_neg (Int.not_lt.mpr hout)]
  split
  · exact ⟨_, rfl⟩
  · exact ⟨_, rfl⟩

section Panics

variable {s : LogSys} {o b : Nat} {w : List Nat}

theorem LogInv.outstanding_pos (hi : LogInv s) (hw : s.active.lookup o = some w) :
    1 ≤ s.log.outstanding := by
  have := List.length_pos_of_mem (mem_of_lookup hw)
  rw [hi.outstanding_eq]
  omega

/-- An operation that has written fewer than `MAXOPBLOCKS` blocks always finds room in the
log, whatever block it writes. -/
theorem LogInv.logWrite_ok_of_lt (hi : LogInv s) (hw : s.active.lookup o = some w)
    (hlt : w.length < MAXOPBLOCKS) : ∃ t, s.step (.logWrite o b) = .ok t := by
  -- the operation's own unused room keeps the header short of `LOGBLOCKS`
  have hmine := le_reserved (mem_of_lookup hw)
  have hroom := hi.room
  obtain ⟨l, hl⟩ := logWrite_ok_of_room b (by simp only at hmine; omega) (hi.outstanding_pos hw)
  simp [LogSys.step, hl]

/-- A log with `LOGBLOCKS` entries refuses every `log_write`. -/
theorem step_logWrite_full (hfull : LOGBLOCKS ≤ s.log.lh.length) :
    s.step (.logWrite o b) = .error "too big a transaction" := by
  simp [LogSys.step, logWrite, hfull]

/-- The one panic an allowed call reaches: an allowed `log_write` from a reachable state panics
exactly when the log holds `LOGBLOCKS` entries, and then with "too big a transaction"; it is
then by an operation that has written `MAXOPBLOCKS` blocks, of one of them again. -/
theorem LogInv.logWrite_panic (hi : LogInv s) (ha : s.allowed (.logWrite o b) = true) :
    (∀ e, s.step (.logWrite o b) = .error e ↔
      e = "too big a transaction" ∧ s.log.lh.length = LOGBLOCKS) ∧
    (s.log.lh.length = LOGBLOCKS →
      ∃ w, s.active.lookup o = some w ∧ b ∈ w ∧ w.length = MAXOPBLOCKS) := by
  obtain ⟨w, hw, hallow⟩ := allowed_logWrite ha
  have hroom := hi.room
  have hle := hi.written_le _ (mem_of_lookup hw)
  -- below `MAXOPBLOCKS` the operation finds room, so a full log means it wrote them all
  have hmax : s.log.lh.length = LOGBLOCKS → b ∈ w ∧ w.length = MAXOPBLOCKS := by
    intro hfull
    by_cases hlt : w.length < MAXOPBLOCKS
    · obtain ⟨t, ht⟩ := hi.logWrite_ok_of_lt (b := b) hw hlt
      rw [step_logWrite_full hfull.ge] at ht
      cases ht
    · exact ⟨hallow.resolve_right hlt, by simp only at hle; omega⟩
  refine ⟨fun e => ⟨fun he => ?_, fun ⟨he, hfull⟩ => he ▸ step_logWrite_full hfull.ge⟩,
    fun hfull => ⟨w, hw, hmax hfull⟩⟩
  have hl : Xv6.logWrite s.log b = .error e := by
    cases hl : Xv6.logWrite s.log b with
    | error e' => simpa [LogSys.step, hl] using he
    | ok l => simp [LogSys.step, hl] at he
  rcases logWrite_eq_error hl with ⟨hfull, rfl⟩ | ⟨hout, -⟩
  · exact ⟨rfl, by omega⟩
  · have := hi.outstanding_pos hw
    omega

end Panics

/-- Three operations begin on an idle log and write ten distinct blocks each; operation `1`
then writes its first block again. The contract allows it and the write needs no new entry,
but the log holds `LOGBLOCKS` entries and `log_write` panics. -/
theorem log_write_absorbed_panics :
    let evs : List LogEvent := [.beginOp 1, .beginOp 2, .beginOp 3] ++
      (List.range 10).map (fun i => .logWrite 1 (100 + i)) ++
      (List.range 10).map (fun i => .logWrite 2 (110 + i)) ++
      (List.range 10).map (fun i => .logWrite 3 (120 + i))
    let s := (Trace.replay LogSys.next LogSys.init evs).getD LogSys.init
    Trace.Run LStep LogSys.init evs s ∧ s.allowed (.logWrite 1 100) = true ∧
      s.step (.logWrite 1 100) = .error "too big a transaction" := by
  intro evs s
  have hrep : Trace.replay LogSys.next LogSys.init evs = some s := rfl
  have hrun : Trace.Run LStep LogSys.init evs s := Trace.Run.of_replay hrep
  have hallow : s.allowed (.logWrite 1 100) = true := by decide
  -- the log holds thirty entries: the panic of a full log
  exact ⟨hrun, hallow,
    (((LogInv.reachable hrun).logWrite_panic hallow).1 _).mpr ⟨rfl, by decide⟩⟩

end Xv6
