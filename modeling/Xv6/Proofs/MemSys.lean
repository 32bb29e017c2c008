import Xv6.Proofs.Exec
import Xv6.Proofs.Kwait

/-!
# The memory of the system over every run

`MStep` runs the process table and physical memory together. `kfork` and `kwait` allocate and
free as `allocproc` and `freeproc` do; `sbrk`, page faults, `copyout`, `copyin` and `kexec` work
in the page table of the running process; every other event touches the table alone. The
holders of the ownership model are the slots of the table, `some i`, and `none`, which holds the
page table `kexec` builds until it commits to it, and nothing between two steps.

`MemInv` says that the pages the slots hold are owned exclusively (`VmInv`), that a slot in use
has a trapframe and a user memory that keeps `UserMem`, and that a free slot holds nothing. Each
event keeps it (`MemInv.step`), so it holds along every run from `userinit`
(`MemInv.reachable`): whatever the interleaving of system calls, faults and scheduling, a user
page is mapped at one address of one process, and never while it is free
(`MemInv.user_page_private`).
-/

namespace Xv6

/-! ## The slots as holders -/

/-- What the slot `q` holds: its page table and its trapframe, where `0` is none. -/
def Proc.space (q : Proc) : Space :=
  ⟨if q.pagetable = 0 then none else some q.pagetable,
    if q.trapframe = 0 then none else some q.trapframe⟩

/-- The holders of the table `t`: its slots, and `none`. -/
def procSpace (t : PTable) : Option (Fin NPROC) → Space
  | some i => (t.proc i).space
  | none => ⟨none, none⟩

@[simp]
theorem procSpace_some (t : PTable) (i : Fin NPROC) : procSpace t (some i) = (t.proc i).space :=
  rfl

@[simp]
theorem procSpace_none (t : PTable) : procSpace t none = ⟨none, none⟩ := rfl

/-- A table that differs from `t` in the slot `i` alone differs in what `i` holds alone. -/
theorem procSpace_of_other {t t' : PTable} {i : Fin NPROC}
    (hother : ∀ j, j ≠ i → t'.proc j = t.proc j) :
    procSpace t' = Function.update (procSpace t) (some i) (t'.proc i).space := by
  funext z
  rcases z with _ | j
  · simp
  · by_cases hj : j = i
    · subst hj
      simp
    · simp [hj, hother j hj]

/-- The slot `i` given the page table `pt` and the trapframe `tf`. -/
theorem procSpace_of_pages {t t' : PTable} {i : Fin NPROC} {pt tf : Nat}
    (hother : ∀ j, j ≠ i → t'.proc j = t.proc j) (hpt : (t'.proc i).pagetable = pt)
    (htf : (t'.proc i).trapframe = tf) (hpt0 : pt ≠ 0) (htf0 : tf ≠ 0) :
    procSpace t' = Space.setTf (Space.setRoot (procSpace t) (some i) pt) (some i) tf := by
  rw [procSpace_of_other hother]
  funext z
  by_cases hz : z = some i
  · subst hz
    simp [Space.setTf, Space.setRoot, Proc.space, hpt, htf, hpt0, htf0]
  · simp [Space.setTf, Space.setRoot, hz]

/-- The slot `i` given another page table `pt`, with the trapframe it had. -/
theorem procSpace_of_root {t t' : PTable} {i : Fin NPROC} {pt : Nat}
    (hother : ∀ j, j ≠ i → t'.proc j = t.proc j) (hpt : (t'.proc i).pagetable = pt)
    (htf : (t'.proc i).trapframe = (t.proc i).trapframe) (hpt0 : pt ≠ 0) :
    procSpace t' = Space.setRoot (procSpace t) (some i) pt := by
  rw [procSpace_of_other hother, Space.setRoot]
  congr 1
  simp [Proc.space, hpt, htf, hpt0]

/-- The slot `i` emptied by `freeproc`. -/
theorem procSpace_freeproc (t : PTable) (i : Fin NPROC) :
    procSpace (Xv6.freeproc t i) = Space.dropRoot (Space.dropTf (procSpace t) (some i)) (some i) := by
  rw [procSpace_of_other (t := t) (i := i) fun j hj => by simp [Xv6.freeproc, hj]]
  funext z
  by_cases hz : z = some i
  · subst hz
    simp [Space.dropRoot, Space.dropTf, Xv6.freeproc, Proc.space]
  · simp [Space.dropRoot, Space.dropTf, hz]

/-! ## Tables that hold the same memory -/

/-- What `SameMem` compares in a slot: its pages, its size, and whether it is free. -/
def MemKept (q q' : Proc) : Prop :=
  q'.pagetable = q.pagetable ∧ q'.trapframe = q.trapframe ∧ q'.sz = q.sz ∧
    (q'.state = .UNUSED ↔ q.state = .UNUSED)

theorem MemKept.refl (q : Proc) : MemKept q q := ⟨rfl, rfl, rfl, Iff.rfl⟩

theorem MemKept.trans {a b c : Proc} (h₁ : MemKept a b) (h₂ : MemKept b c) : MemKept a c := by
  obtain ⟨hpt₁, htf₁, hsz₁, hst₁⟩ := h₁
  obtain ⟨hpt₂, htf₂, hsz₂, hst₂⟩ := h₂
  exact ⟨hpt₂.trans hpt₁, htf₂.trans htf₁, hsz₂.trans hsz₁, hst₂.trans hst₁⟩

/-- A slot in use that goes to another state in use, with its pages and its size. -/
theorem MemKept.of_live {q q' : Proc} (hq : q.state ≠ .UNUSED) (hq' : q'.state ≠ .UNUSED)
    (hpt : q'.pagetable = q.pagetable) (htf : q'.trapframe = q.trapframe) (hsz : q'.sz = q.sz) :
    MemKept q q' :=
  ⟨hpt, htf, hsz, iff_of_false hq' hq⟩

/-- `t'` has the pages and the sizes of `t`, and the same free slots. -/
def SameMem (t t' : PTable) : Prop := Slotwise MemKept t t'

theorem SameMem.refl (t : PTable) : SameMem t t := Slotwise.refl MemKept.refl t

theorem SameMem.trans {t₁ t₂ t₃ : PTable} (h₁ : SameMem t₁ t₂) (h₂ : SameMem t₂ t₃) :
    SameMem t₁ t₃ :=
  Slotwise.trans (R := MemKept) (fun _ _ _ => MemKept.trans) h₁ h₂

/-- Tables with the same pages have the same holders. -/
theorem SameMem.procSpace {t t' : PTable} (h : SameMem t t') : procSpace t' = procSpace t := by
  funext z
  rcases z with _ | i
  · rfl
  · obtain ⟨hpt, htf, -⟩ := h i
    simp [Proc.space, hpt, htf]

/-- A slot in use moving to another state in use. -/
theorem SameMem.setLive (t : PTable) {i : Fin NPROC} (q : Proc) (hi : (t.proc i).state ≠ .UNUSED)
    (hq : q.state ≠ .UNUSED) (hpt : q.pagetable = (t.proc i).pagetable)
    (htf : q.trapframe = (t.proc i).trapframe) (hsz : q.sz = (t.proc i).sz) :
    SameMem t (t.set i q) :=
  Slotwise.set MemKept.refl t i (MemKept.of_live hi hq hpt htf hsz)

theorem PTable.Running.ne_unused {t : PTable} {p : Fin NPROC} (hp : t.Running p) :
    (t.proc p).state ≠ .UNUSED := by
  rw [show (t.proc p).state = .RUNNING from hp]
  decide

-- `wakeup`, `reparent`, `kkill` and the scheduler move slots between states in use
theorem SameMem.wakeup (t : PTable) (me : Option (Fin NPROC)) (chan : Option Chan) :
    SameMem t (Xv6.wakeup t me chan) :=
  Slotwise.wakeup MemKept.refl
    (fun _ hq => MemKept.of_live (by simp [hq]) (by simp) rfl rfl rfl) t me chan

theorem SameMem.reparentLoop (p : Fin NPROC) (l : List (Fin NPROC)) (t : PTable) :
    SameMem t (Xv6.reparentLoop p l t) :=
  Slotwise.reparentLoop MemKept.refl (fun _ _ _ => MemKept.trans)
    (fun _ => ⟨rfl, rfl, rfl, Iff.rfl⟩)
    (fun _ hq => MemKept.of_live (by simp [hq]) (by simp) rfl rfl rfl) p l t

theorem SameMem.kkillLoop (pid : Int) (l : List (Fin NPROC)) (t : PTable) :
    SameMem t (Xv6.kkillLoop pid l t).1 :=
  Slotwise.kkillLoop MemKept.refl (fun _ _ => ⟨rfl, rfl, rfl, Iff.rfl⟩)
    (fun _ hq => MemKept.of_live (by simp [hq]) (by simp) rfl rfl rfl) pid l t

theorem SameMem.scheduler (t : PTable) : SameMem t (Xv6.scheduler t) :=
  Slotwise.scheduler MemKept.refl
    (fun _ hq => MemKept.of_live (by simp [hq]) (by simp) rfl rfl rfl) t

theorem SameMem.kexit {t t' : PTable} {p : Fin NPROC} {status : Int} (hp : t.Running p)
    (h : Xv6.kexit t p status = some t') : SameMem t t' := by
  unfold Xv6.kexit at h
  split at h
  · cases h
  · simp only [Option.some.injEq] at h
    subst h
    -- reparenting and waking keep the memory, and `p` goes from running to `ZOMBIE`
    have h₁ : SameMem t (Xv6.wakeup (reparent t p) (some p)
        (((reparent t p).proc p).parent.map Chan.proc)) :=
      (SameMem.reparentLoop p slots t).trans (SameMem.wakeup _ _ _)
    exact h₁.trans (SameMem.setLive _ _ (fun hu => hp.ne_unused ((h₁ p).2.2.2.mp hu)) (by simp)
      rfl rfl rfl)

/-- The events of the table alone keep the memory. -/
theorem SameMem.of_keepsMemory {t t' : PTable} {e : PEvent} (he : e.keepsMemory = true)
    (h : PStep t e t') : SameMem t t' := by
  cases h with
  | fork => simp [PEvent.keepsMemory] at he
  | wait => simp [PEvent.keepsMemory] at he
  | exit hp hex => exact SameMem.kexit hp hex
  | kill => exact SameMem.kkillLoop _ _ _
  | setkilled hp => exact SameMem.setLive _ _ hp.ne_unused hp.ne_unused rfl rfl rfl
  | yield hp => exact SameMem.setLive _ _ hp.ne_unused (by simp) rfl rfl rfl
  | sleep hp => exact SameMem.setLive _ _ hp.ne_unused (by simp) rfl rfl rfl
  | wakeup => exact SameMem.wakeup _ _ _
  | schedule => exact SameMem.scheduler _

/-! ## What `kfork` and `userinit` write -/

theorem kfork_proc_of_ne {t : PTable} {np j : Fin NPROC} (hnp : findUnused t slots = some np)
    (hj : j ≠ np) (p : Fin NPROC) (tf pt : Nat) (ok : Bool) :
    (kfork t p tf pt ok).1.proc j = t.proc j := by
  simp only [kfork, allocproc, hnp, allocpid]
  by_cases htf : tf = 0
  · simp [htf, Xv6.freeproc, hj]
  by_cases hpt : pt = 0
  · simp [htf, hpt, Xv6.freeproc, hj]
  cases ok <;> simp [htf, hpt, Xv6.freeproc, hj]

/-- The slot `np` that `kfork` by `p` claims: in use with both pages and the size of `p` when
the copy succeeded, free with nothing when it did not. -/
theorem kfork_child {t : PTable} {p np : Fin NPROC} (hnp : findUnused t slots = some np)
    (hpnp : p ≠ np) {tf pt : Nat} {ok : Bool} {q : Proc}
    (hq : (kfork t p tf pt ok).1.proc np = q) :
    (ok = true → tf ≠ 0 → pt ≠ 0 → q.state = .RUNNABLE ∧ q.trapframe = tf ∧ q.pagetable = pt ∧
        q.sz = (t.proc p).sz) ∧
      (ok = false → q.state = .UNUSED ∧ q.pagetable = 0 ∧ q.trapframe = 0 ∧ q.sz = 0) := by
  subst hq
  simp only [kfork, allocproc, hnp, allocpid]
  refine ⟨fun hok htf hpt => ?_, fun hok => ?_⟩
  · subst hok
    simp [htf, hpt, hpnp]
  · -- `allocproc` gave up, or `uvmcopy` did: either way `freeproc(np)`
    subst hok
    by_cases htf : tf = 0
    · simp [htf, Xv6.freeproc]
    by_cases hpt : pt = 0
    · simp [htf, hpt, Xv6.freeproc]
    · simp [htf, hpt, Xv6.freeproc]

/-- `userinit` returns a table when both pages are there: `initproc` is then `RUNNABLE` with them
and size `0`, and every other slot is zero. -/
theorem userinit_eq {tf pt : Nat} {t : PTable} (h : userinit tf pt = some t) :
    tf ≠ 0 ∧ pt ≠ 0 ∧ (∀ j, j ≠ initproc → t.proc j = Proc.zero) ∧
      (t.proc initproc).state = .RUNNABLE ∧ (t.proc initproc).trapframe = tf ∧
      (t.proc initproc).pagetable = pt ∧ (t.proc initproc).sz = 0 := by
  have h0 : findUnused PTable.zero slots = some initproc := rfl
  simp only [userinit, allocproc, h0, allocpid] at h
  by_cases htf : tf = 0
  · simp [htf] at h
  by_cases hpt : pt = 0
  · simp [htf, hpt] at h
  simp only [htf, hpt, if_false, Option.some.injEq] at h
  subst h
  exact ⟨htf, hpt, fun j hj => by simp [hj, PTable.zero], by simp, by simp, by simp,
    by simp [PTable.zero, Proc.zero]⟩

/-! ## The invariant -/

/-- The memory invariant of the system: the pages the slots hold are owned exclusively; a slot
in use has a trapframe, and its memory keeps `UserMem`; a free slot holds nothing. -/
structure MemInv («end» : Nat) (k0 : Kmem) (s : MemSys) : Prop where
  inv : VmInv «end» k0 s.vm (procSpace s.t)
  live : ∀ i, (s.t.proc i).state ≠ .UNUSED →
    (s.t.proc i).trapframe ≠ 0 ∧ UserMem «end» k0 s.vm (procSpace s.t) (some i) (s.t.proc i)
  unused : ∀ i, (s.t.proc i).state = .UNUSED →
    (s.t.proc i).pagetable = 0 ∧ (s.t.proc i).trapframe = 0 ∧ (s.t.proc i).sz = 0

section Inv

variable {«end» : Nat} {k0 : Kmem} {s : MemSys}

theorem MemInv.space_unused (hs : MemInv «end» k0 s) {i : Fin NPROC}
    (hi : (s.t.proc i).state = .UNUSED) : procSpace s.t (some i) = ⟨none, none⟩ := by
  obtain ⟨hpt, htf, -⟩ := hs.unused i hi
  simp [Proc.space, hpt, htf]

theorem MemInv.tf_live (hs : MemInv «end» k0 s) {i : Fin NPROC}
    (hi : (s.t.proc i).state ≠ .UNUSED) :
    (procSpace s.t (some i)).tf = some (s.t.proc i).trapframe := by
  simp [Proc.space, (hs.live i hi).1]

/-- A table with the same memory keeps the invariant. -/
theorem MemInv.of_same (hs : MemInv «end» k0 s) {t' : PTable} (h : SameMem s.t t') :
    MemInv «end» k0 ⟨t', s.vm⟩ := by
  have hsp : procSpace t' = procSpace s.t := h.procSpace
  refine ⟨by rw [hsp]; exact hs.inv, fun i hi => ?_, fun i hi => ?_⟩ <;> dsimp only at hi ⊢ <;>
    obtain ⟨hpt, htf, hsz, hst⟩ := h i
  · obtain ⟨htf0, hp⟩ := hs.live i fun hu => hi (hst.mpr hu)
    exact ⟨htf ▸ htf0, by rw [hsp]; exact hp.of_proc hpt hsz⟩
  · obtain ⟨hpt0, htf0, hsz0⟩ := hs.unused i (hst.mp hi)
    exact ⟨hpt.trans hpt0, htf.trans htf0, hsz.trans hsz0⟩

/-- A step that writes the slot `i` alone and moves no leaf of another slot keeps the invariant,
once ownership in the new holders is exclusive and the slot `i` is as the invariant asks. -/
theorem MemInv.update (hs : MemInv «end» k0 s) {i : Fin NPROC} {t' : PTable} {vm' : Vm}
    (hother : ∀ j, j ≠ i → t'.proc j = s.t.proc j) (h' : VmInv «end» k0 vm' (procSpace t'))
    (hout : LeavesBut s.vm vm' (procSpace s.t) (some i) none)
    (hlive : (t'.proc i).state ≠ .UNUSED →
      (t'.proc i).trapframe ≠ 0 ∧ UserMem «end» k0 vm' (procSpace t') (some i) (t'.proc i))
    (hunused : (t'.proc i).state = .UNUSED →
      (t'.proc i).pagetable = 0 ∧ (t'.proc i).trapframe = 0 ∧ (t'.proc i).sz = 0) :
    MemInv «end» k0 ⟨t', vm'⟩ := by
  refine ⟨h', fun j hj => ?_, fun j hj => ?_⟩ <;> dsimp only at hj ⊢ <;> by_cases hji : j = i
  · subst hji
    exact hlive hj
  · -- another slot: its tree and its leaves are as they were
    rw [hother j hji] at hj ⊢
    obtain ⟨htf, hp⟩ := hs.live j hj
    have hroot : (procSpace t' (some j)).root = (procSpace s.t (some j)).root := by
      simp [hother j hji]
    exact ⟨htf, hp.of_leaves h' hroot fun a b c ha hb hc =>
      hout (some j) _ (by simpa using hji) (by simp) hp.root a b c ha hb hc⟩
  · subst hji
    exact hunused hj
  · rw [hother j hji] at hj ⊢
    exact hs.unused j hj

/-- A call of the process `p`, in use, that writes its slot alone, keeps it in use with its
trapframe and moves no leaf of another slot, keeps the invariant once the memory of `p` keeps
`UserMem`. -/
theorem MemInv.running (hs : MemInv «end» k0 s) {p : Fin NPROC}
    (hp : (s.t.proc p).state ≠ .UNUSED) {t' : PTable} {vm' : Vm}
    (hother : ∀ j, j ≠ p → t'.proc j = s.t.proc j) (hst : (t'.proc p).state ≠ .UNUSED)
    (htf : (t'.proc p).trapframe = (s.t.proc p).trapframe)
    (hmem : UserMem «end» k0 vm' (procSpace t') (some p) (t'.proc p))
    (hout : LeavesBut s.vm vm' (procSpace s.t) (some p) none) : MemInv «end» k0 ⟨t', vm'⟩ :=
  hs.update hother hmem.inv hout (fun _ => ⟨htf ▸ (hs.live p hp).1, hmem⟩) fun h => absurd h hst

/-- A call of `p` that leaves the table alone and moves no leaf outside its own tree. -/
theorem MemInv.inPlace (hs : MemInv «end» k0 s) {p : Fin NPROC} (hp : (s.t.proc p).state ≠ .UNUSED)
    {vm' : Vm} {S : Nat → Prop} (hmem : UserMem «end» k0 vm' (procSpace s.t) (some p) (s.t.proc p))
    (hout : LeavesOut s.vm vm' (procSpace s.t) (some p) S) : MemInv «end» k0 { s with vm := vm' } :=
  hs.running hp (fun _ _ => rfl) hp rfl hmem (hout.but_left none)

/-- Before `userinit`: the zeroed table, on the memory `kinit` leaves. -/
theorem MemInv.zero (hk0 : KmemInv «end» k0) :
    MemInv «end» k0 ⟨PTable.zero, ⟨k0, fun _ _ => 0, []⟩⟩ := by
  have hsp : procSpace PTable.zero = fun _ => ⟨none, none⟩ := by
    funext z
    rcases z with _ | i <;> simp [PTable.zero, Proc.zero, Proc.space]
  refine ⟨by rw [hsp]; exact VmInv.empty hk0, fun i hi => (hi rfl).elim,
    fun i _ => ⟨rfl, rfl, rfl⟩⟩

/-! ## Every event keeps the invariant -/

variable (hend : KERNBASE ≤ «end»)
include hend

/-- A call of `p` that gives its slot a page table and a size, and keeps the rest of it: the
invariant holds again once the new tree carries `p`'s memory. -/
theorem MemInv.resize (hs : MemInv «end» k0 s) {p : Fin NPROC} (hp : (s.t.proc p).state ≠ .UNUSED)
    {q : Proc} {vm' : Vm} (hq : q = { s.t.proc p with pagetable := q.pagetable, sz := q.sz })
    (hmem : UserMem «end» k0 vm' (Space.setRoot (procSpace s.t) (some p) q.pagetable) (some p) q)
    (hout : LeavesBut s.vm vm' (procSpace s.t) (some p) none) :
    MemInv «end» k0 ⟨s.t.set p q, vm'⟩ := by
  have hother : ∀ j, j ≠ p → (s.t.set p q).proc j = s.t.proc j := fun j hj => by simp [hj]
  have htf : q.trapframe = (s.t.proc p).trapframe := by rw [hq]
  have hsp : procSpace (s.t.set p q) = Space.setRoot (procSpace s.t) (some p) q.pagetable :=
    procSpace_of_root hother (by simp) (by simpa using htf) (hmem.pagetable_ne_zero hend)
  refine hs.running hp hother ?_ ?_ ?_ hout <;> rw [PTable.set_proc_self]
  · rw [hq]
    exact hp
  · exact htf
  · rw [hsp]
    exact hmem

/-- A page fault of the running process `p`. -/
theorem MemInv.step_fault (hs : MemInv «end» k0 s) {p : Fin NPROC} (hp : s.t.Running p)
    {va r : Nat} {vm' : Vm}
    (h : vmfault «end» (s.t.proc p).sz (s.t.proc p).pagetable (s.t.proc p).pagetable va s.vm =
      .ok (r, vm')) :
    MemInv «end» k0 { s with vm := vm' } := by
  obtain ⟨hmem, hout⟩ := (hs.live p hp.ne_unused).2.vmfault_into hend h
  exact hs.inPlace hp.ne_unused hmem hout

/-- `copyout` by a system call of the running process `p`. -/
theorem MemInv.step_copyout (hs : MemInv «end» k0 s) {p : Fin NPROC} (hp : s.t.Running p)
    {dstva len : Nat} {r : Int} {vm' : Vm}
    (h : Xv6.copyout «end» (s.t.proc p).sz (s.t.proc p).pagetable (s.t.proc p).pagetable dstva
      len s.vm = .ok (r, vm')) :
    MemInv «end» k0 { s with vm := vm' } := by
  obtain ⟨hmem, hout⟩ := (hs.live p hp.ne_unused).2.copyoutLoop_into hend len h
  exact hs.inPlace hp.ne_unused hmem hout

/-- `copyin` by a system call of the running process `p`. -/
theorem MemInv.step_copyin (hs : MemInv «end» k0 s) {p : Fin NPROC} (hp : s.t.Running p)
    {srcva len : Nat} {r : Int} {vm' : Vm}
    (h : Xv6.copyin «end» (s.t.proc p).sz (s.t.proc p).pagetable (s.t.proc p).pagetable srcva
      len s.vm = .ok (r, vm')) :
    MemInv «end» k0 { s with vm := vm' } := by
  obtain ⟨r', vm'', hrun, hmem, hfaults, -⟩ :=
    (hs.live p hp.ne_unused).2.copyinLoop hend len srcva len le_rfl
  obtain ⟨rfl, rfl⟩ : r = r' ∧ vm' = vm'' := by simpa using h.symm.trans hrun
  exact hs.inPlace hp.ne_unused hmem hfaults.others

/-- `sbrk` by the running process `p`: the slot keeps its pages, with a new size. -/
theorem MemInv.step_sbrk (hs : MemInv «end» k0 s) {p : Fin NPROC} (hp : s.t.Running p)
    {n t r : Int} {q : Proc} {vm' : Vm}
    (h : sysSbrk «end» (s.t.proc p) n t s.vm = .ok (r, q, vm')) :
    MemInv «end» k0 ⟨s.t.set p q, vm'⟩ := by
  obtain ⟨hq, hmem, hout⟩ := (hs.live p hp.ne_unused).2.sysSbrk hend h
  -- the size is all that changes: the tree `p` is given is the one it has
  refine hs.resize hend hp.ne_unused (by rw [hq]) ?_ (hout.but_left none)
  rw [Space.setRoot_self hmem.root]
  exact hmem

/-- `kexec` by the running process `p`: the slot may commit to a new page table and size. -/
theorem MemInv.step_exec (hs : MemInv «end» k0 s) {p : Fin NPROC} (hp : s.t.Running p)
    {trampoline : Nat} {elfOk : Bool} {segs : List ElfSeg} {argv : List Nat} {r : Int} {q : Proc}
    {vm' : Vm} (h : kexec «end» trampoline (s.t.proc p) elfOk segs argv s.vm = .ok (r, q, vm')) :
    MemInv «end» k0 ⟨s.t.set p q, vm'⟩ := by
  obtain ⟨hq, hmem, hout⟩ :=
    (hs.live p hp.ne_unused).2.kexec hend (by simp) (procSpace_none s.t) h
  exact hs.resize hend hp.ne_unused hq hmem hout

/-- `kwait` by the running process `p`: nothing moves, or the child it reaps holds nothing. -/
theorem MemInv.step_wait (hs : MemInv «end» k0 s) {p : Fin NPROC} (hp : s.t.Running p)
    {addr : Nat} {ok : Bool} {vm' : Vm} (h : kwaitMem «end» s.t p addr ok s.vm = .ok vm') :
    MemInv «end» k0 ⟨(kwait s.t p addr ok).1, vm'⟩ := by
  rcases kwaitMem_cases s.t p addr ok s.vm with ⟨hmem, -, htbl⟩ | ⟨c, hc, -, hmem, htbl⟩
  · -- nothing is freed, and `p` at most goes to sleep
    obtain rfl : s.vm = vm' := by simpa using hmem.symm.trans h
    rcases htbl with htbl | htbl <;> rw [htbl]
    · exact hs.of_same (SameMem.refl _)
    · exact hs.of_same (SameMem.setLive _ _ hp.ne_unused (by simp) rfl rfl rfl)
  · -- both sides free the child `c`
    have hlive : (s.t.proc c).state ≠ .UNUSED := by
      rw [hc.2]
      decide
    obtain ⟨vm'', hfree, h', hout, -⟩ := (hs.live c hlive).2.freeproc hend (hs.tf_live hlive)
    obtain rfl : vm'' = vm' := by simpa using hfree.symm.trans (hmem.symm.trans h)
    rw [htbl]
    refine hs.update (i := c) (fun j hj => by simp [Xv6.freeproc, hj]) ?_ (hout.but_left none)
      (fun hu => absurd (by simp [Xv6.freeproc]) hu) fun _ => by simp [Xv6.freeproc]
    rw [procSpace_freeproc]
    exact h'

/-- `kfork` by the running process `p`. -/
theorem MemInv.step_fork (hs : MemInv «end» k0 s) {p : Fin NPROC} (hp : s.t.Running p)
    {trampoline : Nat} {s' : MemSys} (h : s.fork «end» trampoline p = .ok s') :
    MemInv «end» k0 s' := by
  unfold MemSys.fork at h
  cases hnp : findUnused s.t slots with
  | none =>
    -- no free slot: nothing happens
    rw [hnp] at h
    cases h
    exact hs
  | some np =>
    rw [hnp] at h
    obtain ⟨⟨tf, pt, ok, vm'⟩, hmem, h⟩ := Loop.bind_eq_ok.mp h
    cases Except.ok.inj h
    have hunp : (s.t.proc np).state = .UNUSED := findUnused_unused hnp
    have hpnp : p ≠ np := fun e => hp.ne_unused (e ▸ hunp)
    obtain ⟨hpt0, -, hsz0⟩ := hs.unused np hunp
    obtain ⟨tf', pt', ok', vm'', hrun, hout, hfail, hdone⟩ :=
      (hs.live p hp.ne_unused).2.kforkMem hend (hs.space_unused hunp) (by simpa using hpnp) hpt0
        hsz0 trampoline
    obtain ⟨rfl, rfl, rfl, rfl⟩ : tf = tf' ∧ pt = pt' ∧ ok = ok' ∧ vm' = vm'' := by
      simpa using hmem.symm.trans hrun
    have hother := fun j (hj : j ≠ np) => kfork_proc_of_ne hnp hj p tf pt ok
    obtain ⟨hok, hnok⟩ := kfork_child hnp hpnp (rfl : (kfork s.t p tf pt ok).1.proc np = _)
    cases ok
    · -- `kfork` gave up: the slot is free again, and the holders are as they were
      obtain ⟨h', -, -⟩ := hfail rfl
      obtain ⟨hu, hpt, htf, hsz⟩ := hnok rfl
      have hspace : ((kfork s.t p tf pt false).1.proc np).space = procSpace s.t (some np) := by
        rw [hs.space_unused hunp]
        simp [Proc.space, hpt, htf]
      have hsp : procSpace (kfork s.t p tf pt false).1 = procSpace s.t := by
        rw [procSpace_of_other hother, hspace]
        exact Function.update_eq_self _ _
      exact hs.update hother (by rw [hsp]; exact h') (hout.but_left none) (fun h => absurd hu h)
        fun _ => ⟨hpt, htf, hsz⟩
    · -- the child holds its trapframe and the copy of the parent's memory
      obtain ⟨htf, hpt, hchild, -⟩ := hdone rfl
      obtain ⟨hlive, htf', hpt', hsz'⟩ := hok rfl htf hpt
      have hsp := procSpace_of_pages hother hpt' htf' hpt htf
      refine hs.update hother (by rw [hsp]; exact hchild.inv) (hout.but_left none)
        (fun _ => ⟨by rw [htf']; exact htf, ?_⟩) fun h => absurd (h.symm.trans hlive) (by decide)
      rw [hsp]
      exact hchild.of_proc hpt' hsz'

/-- Every event keeps the invariant. -/
theorem MemInv.step (hs : MemInv «end» k0 s) {trampoline : Nat} {e : MEvent} {s' : MemSys}
    (h : MStep «end» trampoline s e s') : MemInv «end» k0 s' := by
  cases h with
  | proc he hp => exact hs.of_same (SameMem.of_keepsMemory he hp)
  | fork hp hf => exact hs.step_fork hend hp hf
  | wait hp hw => exact hs.step_wait hend hp hw
  | sbrk hp hb => exact hs.step_sbrk hend hp hb
  | fault hp hf => exact hs.step_fault hend hp hf
  | copyout hp hc => exact hs.step_copyout hend hp hc
  | copyin hp hc => exact hs.step_copyin hend hp hc
  | exec hp hx => exact hs.step_exec hend hp hx

/-- `userinit` on the memory `kinit` leaves: when it returns a table, the invariant holds. -/
theorem MemInv.boot (hk0 : KmemInv «end» k0) {trampoline : Nat}
    (h : memBoot «end» trampoline ⟨k0, fun _ _ => 0, []⟩ = .ok (some s)) : MemInv «end» k0 s := by
  have h0 : MemInv «end» k0 ⟨PTable.zero, ⟨k0, fun _ _ => 0, []⟩⟩ := MemInv.zero hk0
  obtain ⟨⟨tf, pt, vm'⟩, halloc, h⟩ := Loop.bind_eq_ok.mp h
  obtain ⟨t, hu, rfl⟩ := Option.map_eq_some_iff.mp (Except.ok.inj h)
  obtain ⟨htf0, hpt0, hother, hst, htf, hpt, hsz⟩ := userinit_eq hu
  obtain ⟨tf', pt', vm'', halloc', -, hcase⟩ := h0.inv.allocprocMem hend
    (h0.space_unused (i := initproc) rfl) (rfl : (PTable.zero.proc initproc).pagetable = 0)
    trampoline
  obtain ⟨rfl, rfl, rfl⟩ : tf = tf' ∧ pt = pt' ∧ vm' = vm'' := by
    simpa using halloc.symm.trans halloc'
  rcases hcase with ⟨hfail, -⟩ | ⟨-, -, h1, htf1, hb1, -, -⟩
  · exact (hfail.elim htf0 hpt0).elim
  -- `initproc` holds the trapframe and the fresh tree, which maps nothing below `TRAPFRAME`
  have hsp := procSpace_of_pages (t := PTable.zero) hother hpt htf hpt0 htf0
  have h' : VmInv «end» k0 vm' (procSpace t) := by
    rw [hsp]
    exact h1.giveTf htf1 _
  refine h0.update hother h' (fun z r _ _ hz => ?_) (fun _ => ⟨by rw [htf]; exact htf0,
    ⟨h', by simp [hpt, hpt0, Proc.space], by simp [hsz], ?_⟩⟩) fun h => absurd (h.symm.trans hst) (by decide)
  · -- no slot of the zeroed table has a tree
    rcases z with _ | j <;> simp [PTable.zero, Proc.zero, Proc.space] at hz
  · rw [hsz, hpt, show PGROUNDUP 0 = 0 by decide]
    exact hb1

/-- The invariant holds along every run of the system from `userinit` on the memory `kinit`
leaves. -/
theorem MemInv.reachable (hk0 : KmemInv «end» k0) {trampoline : Nat} {s0 : MemSys}
    {evs : List MEvent}
    (hboot : memBoot «end» trampoline ⟨k0, fun _ _ => 0, []⟩ = .ok (some s0))
    (hrun : Trace.Run (MStep «end» trampoline) s0 evs s) : MemInv «end» k0 s :=
  Trace.Run.invariant (MemInv.boot hend hk0 hboot) (fun _ _ _ hs h => hs.step hend h) hrun

omit hend in
/-- What the leaf of a user address of `x` maps is the page `x` owns at that leaf. -/
theorem UserMem.pageAt_leafAt {ι : Type} {vm : Vm} {sp : ι → Space} {x : ι} {p : Proc}
    (hp : UserMem «end» k0 vm sp x p) {va w : Nat} (hva : va % PGSIZE = 0) (htf : va < TRAPFRAME)
    (hw : leafAt vm.mem p.pagetable va = some w) :
    pageAt vm.mem sp (.tbl x (.leaf (PX 2 va) (PX 1 va) (PX 0 va))) = some (PTE2PA w) := by
  have hmax : va < MAXVA := lt_trans htf (by decide)
  have hu := (userLeaf_PX hva hmax).mpr htf
  simp only [pageAt, hp.root, Option.bind_some, tablePage, if_pos hu]
  rw [← leafAt, hw]
  rfl

omit hend in
/-- Where the invariant holds, a page a slot in use maps at an aligned user address is mapped
at no other address of any slot in use, and is not free. -/
theorem MemInv.user_page_private (hs : MemInv «end» k0 s) {i j : Fin NPROC} {va va' w w' : Nat}
    (hi : (s.t.proc i).state ≠ .UNUSED) (hj : (s.t.proc j).state ≠ .UNUSED)
    (hva : va % PGSIZE = 0) (hva' : va' % PGSIZE = 0) (htf : va < TRAPFRAME)
    (htf' : va' < TRAPFRAME) (hw : leafAt s.vm.mem (s.t.proc i).pagetable va = some w)
    (hw' : leafAt s.vm.mem (s.t.proc j).pagetable va' = some w') :
    PTE2PA w ∉ s.vm.kmem.freelist ∧ (PTE2PA w = PTE2PA w' → i = j ∧ va = va') := by
  have hpos := (hs.live i hi).2.pageAt_leafAt hva htf hw
  have hpos' := (hs.live j hj).2.pageAt_leafAt hva' htf' hw'
  refine ⟨hs.inv.excl.not_free _ _ hpos, fun he => ?_⟩
  rw [← he] at hpos'
  -- one owner per page: the two positions are one
  have hsame := hs.inv.excl.inj _ _ _ hpos hpos'
  simp only [Pos.tbl.injEq, Option.some.injEq, TPos.leaf.injEq] at hsame
  obtain ⟨rfl, h2, h1, h0⟩ := hsame
  refine ⟨rfl, ?_⟩
  rw [← vaOf_PX_of_mod hva (lt_trans htf (by decide)),
    ← vaOf_PX_of_mod hva' (lt_trans htf' (by decide)), h2, h1, h0]

/-- Along every run of the system from `userinit`, on memory whose allocator keeps its
invariant, the memory invariant holds, and with it the privacy of user pages: a page that a
process in use maps at an aligned user address is not free, and is mapped at no other address of
any process in use. -/
theorem memsys_user_pages_private (hk0 : KmemInv «end» k0) {trampoline : Nat} {s0 : MemSys}
    {evs : List MEvent}
    (hboot : memBoot «end» trampoline ⟨k0, fun _ _ => 0, []⟩ = .ok (some s0))
    (hrun : Trace.Run (MStep «end» trampoline) s0 evs s) :
    MemInv «end» k0 s ∧
      ∀ i j : Fin NPROC, ∀ va va' w w' : Nat, (s.t.proc i).state ≠ .UNUSED →
        (s.t.proc j).state ≠ .UNUSED → va % PGSIZE = 0 → va' % PGSIZE = 0 → va < TRAPFRAME →
        va' < TRAPFRAME → leafAt s.vm.mem (s.t.proc i).pagetable va = some w →
        leafAt s.vm.mem (s.t.proc j).pagetable va' = some w' →
        PTE2PA w ∉ s.vm.kmem.freelist ∧ (PTE2PA w = PTE2PA w' → i = j ∧ va = va') := by
  have hs := MemInv.reachable hend hk0 hboot hrun
  exact ⟨hs, fun i j va va' w w' hi hj hva hva' htf htf' hw hw' =>
    hs.user_page_private hi hj hva hva' htf htf' hw hw'⟩

end Inv

/-- The smallest memory `userinit` boots on: the four pages below `PHYSTOP`, all free. -/
theorem memsys_user_pages_private_four_pages :
    let k0 : Kmem := ⟨[0x87ffc000, 0x87ffd000, 0x87ffe000, 0x87fff000], 4, fun _ => 0⟩
    ∃ s0 : MemSys, KERNBASE ≤ 0x87ffc000 ∧ KmemInv 0x87ffc000 k0 ∧
      memBoot 0x87ffc000 0 ⟨k0, fun _ _ => 0, []⟩ = .ok (some s0) ∧
      MemInv 0x87ffc000 k0 s0 := by
  intro k0
  have hend : KERNBASE ≤ 0x87ffc000 := by decide
  have hk0 : KmemInv 0x87ffc000 ⟨[0x87ffc000, 0x87ffd000, 0x87ffe000, 0x87fff000], 4,
      fun _ => 0⟩ := by
    refine ⟨rfl, by decide, by decide, fun _ _ => rfl, fun p hp hnot => absurd ?_ hnot,
      fun _ _ _ => rfl⟩
    -- the managed pages are the four on the list
    obtain ⟨hal, hlo, hhi⟩ := hp
    rw [show PGROUNDUP 0x87ffc000 = 0x87ffc000 by decide] at hlo
    rw [show PHYSTOP = 0x88000000 by decide, show PGSIZE = 4096 from rfl] at hhi
    rw [show PGSIZE = 4096 from rfl] at hal
    simp only [List.mem_cons, List.not_mem_nil, or_false]
    omega
  -- `allocproc` gets its four pages: the trapframe, and the root, middle and leaf tables
  have hb : ((memBoot 0x87ffc000 0 ⟨⟨[0x87ffc000, 0x87ffd000, 0x87ffe000, 0x87fff000], 4,
      fun _ => 0⟩, fun _ _ => 0, []⟩).toOption.join).isSome = true := by
    decide
  obtain ⟨s0, hs0⟩ := Option.isSome_iff_exists.mp hb
  have hboot : memBoot 0x87ffc000 0 ⟨k0, fun _ _ => 0, []⟩ = .ok (some s0) := by
    have hs0' : (memBoot 0x87ffc000 0 ⟨k0, fun _ _ => 0, []⟩).toOption.join = some s0 := hs0
    generalize memBoot 0x87ffc000 0 ⟨k0, fun _ _ => 0, []⟩ = x at hs0' ⊢
    rcases x with e | _ | r <;> simp [Except.toOption] at hs0' ⊢
    exact hs0'
  exact ⟨s0, hend, hk0, hboot, (memsys_user_pages_private hend hk0 hboot (.nil s0)).1⟩

end Xv6
