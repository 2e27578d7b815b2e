import Sbunix.Clock
import Sbunix.Records

/-!
# The clock of a kernel

`Clock` has the links and the counters of the records, and nothing else. Here it is read off the
kernel (`Kernel.clock`), and what is known of its steps holds of the kernel's own: a switch is the
same function on both (`runNextTask_clock`), and the calls that change the ring are events that the
clock admits, with what `Clock.Steps` says of them (`Inv.clock_steps`).
-/

namespace Sbunix

open Chain

/-- The counters of a record. -/
def Task.counters (t : Task) : Counters :=
  ⟨t.currAlarmCount, t.expectedAlarmCount, t.currSleepCount, t.expectedSleepCount,
    t.functionPointer⟩

/-- What the clock sees of a record. -/
def Task.ticks (t : Task) : Nat × Counters := (t.next, t.counters)

/-- The clock of a kernel; the static variables of the handler are no part of it. -/
def Kernel.clock (k : Kernel) (i j : Nat) : Clock where
  next := k.phys.next
  counters a := (k.phys.tasks a).counters
  runningThread := k.runningThread
  deleteQueue := k.deleteQueue
  i := i
  j := j

/-- What the clock sees of a call that changes the ring, `exec` apart. -/
def Kernel.clockEvent (k : Kernel) : Event → Option Clock.Event
  | .fork _ => some (.fork (kernbase + k.phys.kmalloc.1))
  | .exit => if k.running.pidT = 1 then none else some .exit
  | .kill pid => (k.killed pid).map .kill
  | .exitpid pid => (k.exited pid).map .exitpid
  | _ => none

variable {image : Nat} {Γ : Nat → Use} {L D G : List Nat} {k k' : Kernel} {i j x : Nat}

theorem clock_congr (h : k.phys.SameIn Task.ticks k'.phys)
    (hr : k'.runningThread = k.runningThread) (hq : k'.deleteQueue = k.deleteQueue) :
    k'.clock i j = k.clock i j := by
  have hn : k'.phys.next = k.phys.next := funext fun a => congrArg Prod.fst (h a)
  have hc : (fun a => (k'.phys.tasks a).counters) = fun a => (k.phys.tasks a).counters :=
    funext fun a => congrArg Prod.snd (h a)
  rw [Kernel.clock, Kernel.clock, hn, hc, hr, hq]

/-- The frame of the task is none of the clock's concern. -/
theorem activate_clock (k : Kernel) (a : Nat) : (k.activate a).clock i j = k.clock i j := by
  unfold Kernel.activate
  dsimp only
  split
  · exact clock_congr (k.phys.sameIn_setTask rfl) rfl rfl
  · exact clock_congr (k.phys.sameIn_setTask rfl) rfl rfl

theorem changeToAlarmFunction_clock {fp : Nat} {regs : Registers}
    (hs : k.changeToAlarmFunction fp regs = some k') : k'.clock i j = k.clock i j := by
  unfold Kernel.changeToAlarmFunction at hs
  obtain ⟨a, -, rfl⟩ := Option.map_eq_some_iff.mp hs
  exact clock_congr (Phys.sameIn_of_tasks (by simp)) rfl rfl

/-- A record is written. -/
theorem modifyTask_clock (k : Kernel) (a : Nat) {f : Task → Task} {g : Counters → Counters}
    (hn : ∀ t, (f t).next = t.next) (hg : ∀ t, (f t).counters = g t.counters) :
    (k.modifyTask a f).clock i j =
      { k.clock i j with
        counters := Function.update (k.clock i j).counters a (g ((k.clock i j).counters a)) } := by
  have hnext : (k.modifyTask a f).phys.next = k.phys.next := k.phys.next_setTask_of_eq (hn _)
  have hcount : (fun b => ((k.modifyTask a f).phys.tasks b).counters) =
      Function.update (k.clock i j).counters a (g ((k.clock i j).counters a)) := by
    funext b
    by_cases hb : b = a
    · subst hb
      rw [Function.update_self]
      exact (congrArg Task.counters (Function.update_self ..)).trans (hg _)
    · rw [Function.update_of_ne hb]
      exact congrArg Task.counters (Function.update_of_ne hb ..)
  rw [Kernel.clock, hnext, hcount]
  rfl

/-- **A switch** is that of the clock. -/
theorem runNextTask_clock {r : SwitchRegs} (hs : k.runNextTask r = some k') :
    k'.clock i j = (k.clock i j).runNextTask := by
  unfold Kernel.runNextTask at hs
  dsimp only at hs
  -- the kernel after each of the assignments: saving, choosing and activating
  set k₁ := k.modifyTask k.runningThread _ with hk₁
  have h₁ : k₁.clock i j = k.clock i j := clock_congr (k.phys.sameIn_setTask rfl) rfl rfl
  set next := k₁.phys.next k₁.runningThread with hnext
  set k₂ := { k₁ with runningThread := next }.activate next with hk₂
  have hn : next = k.phys.next k.runningThread :=
    congrArg (fun c : Clock => c.next c.runningThread) h₁
  have h₂ : k₂.clock i j = { k.clock i j with runningThread := next } := by
    rw [hk₂, activate_clock, ← h₁]
    rfl
  have hcount : ∀ a, (k₂.phys.tasks a).counters = (k.phys.tasks a).counters := fun a =>
    congrFun (congrArg Clock.counters h₂) a
  have hdue : (k.phys.tasks next).counters.Due ↔
      (k₂.phys.tasks next).currAlarmCount > (k₂.phys.tasks next).expectedAlarmCount := by
    rw [← hcount]
    rfl
  rw [Clock.runNextTask, show (k.clock i j).next (k.clock i j).runningThread = next from hn.symm,
    show (k.clock i j).counters next = (k.phys.tasks next).counters from rfl, Counters.deliver]
  split at hs
  · -- the alarm is delivered
    obtain ⟨k₃, hk₃, hs⟩ := Option.bind_eq_some_iff.mp hs
    have h₃ := (changeToAlarmFunction_clock (i := i) (j := j) hk₃).trans h₂
    obtain rfl := Option.some.inj hs
    rw [if_pos (hdue.mpr ‹_›)]
    -- what the delivery writes to the record is what `Counters.deliver` clears
    have hclear : (k₃.modifyTask next fun t =>
        { t with functionPointer := 0, currAlarmCount := 0, expectedAlarmCount := 0 }).clock i j =
        { k₃.clock i j with
          counters := Function.update (k₃.clock i j).counters next
            { (k₃.clock i j).counters next with
              functionPointer := 0, currAlarmCount := 0, expectedAlarmCount := 0 } } :=
      @modifyTask_clock i j k₃ next _ (fun t =>
        { t with functionPointer := 0, currAlarmCount := 0, expectedAlarmCount := 0 })
        (fun _ => rfl) fun _ => rfl
    refine hclear.trans ?_
    rw [h₃]
    rfl
  · obtain rfl := Option.some.inj hs
    have hself : Function.update (k.clock i j).counters next (k.phys.tasks next).counters =
        (k.clock i j).counters := Function.update_eq_self next _
    rw [if_neg fun hc => ‹¬_› (hdue.mp hc), hself]
    exact h₂

/-! ### Calls -/

theorem unlinked_counters : Unlinked Task.counters := ⟨fun _ _ => rfl, fun _ _ => rfl⟩

theorem counters_finishChild (parent : Task) (pid ppid : Int) (u : UserRegs)
    (root kernelRsp : Nat) (mmap : List Vma) :
    (Kernel.finishChild (Kernel.initChild Task.zeroed pid ppid u root) parent u kernelRsp
      mmap).counters = .zeroed := rfl

theorem Inv.clock_valid (h : Inv image Γ L D G k) : (k.clock i j).Valid L D where
  ring := h.ring
  queue := h.queue
  nodup := h.nodup
  record _ := h.node

/-- `init` is on the ring, so another task is not alone. -/
theorem Inv.ne_singleton (h : Inv image Γ L D G k) (hx : x ∈ L) (hpid : (k.phys.tasks x).pidT ≠ 1)
    (a : Nat) : L ≠ [a] := by
  rintro rfl
  obtain ⟨b, hb, hinit⟩ := h.init
  obtain rfl := List.mem_singleton.mp hx
  exact hpid (List.mem_singleton.mp hb ▸ hinit)

theorem Inv.killed_mem (h : Inv image Γ L D G k) {pid : Nat} (hk : k.killed pid = some x) :
    x ∈ L ∧ x ≠ k.runningThread := by
  obtain ⟨M, rfl⟩ := h.ring.exists_tail
  rw [Kernel.killed] at hk
  split at hk
  · cases hk
  · rw [h.others_eq] at hk
    have hx := List.mem_of_find?_eq_some hk
    exact ⟨List.mem_cons_of_mem _ hx,
      fun hc => (List.nodup_cons.mp h.ring.nodup).1 (hc ▸ hx)⟩

theorem Inv.exited_mem (h : Inv image Γ L D G k) {pid : Int} (hk : k.exited pid = some x) :
    x ∈ L ∧ (k.phys.tasks x).pidT ≠ 1 := by
  by_cases hpid : pid = 1
  · rw [Kernel.exited, if_pos hpid] at hk
    cases hk
  · obtain ⟨y, hy, -, hexit⟩ := h.exitpid_find hpid
    rw [hexit] at hk
    split at hk
    · next hy' =>
      obtain rfl := Option.some.inj hk
      exact ⟨hy, hy' ▸ hpid⟩
    · cases hk

/-- The record of a child is a new one. -/
theorem Inv.fork_notMem (h : Inv image Γ L D G k) {u : UserRegs} {pid : Int}
    (hf : k.fork u = some (pid, k')) (hx : k'.phys.exhausted = false) :
    kernbase + k.phys.kmalloc.1 ∉ L ++ D := by
  obtain ⟨M, rfl⟩ := h.ring.exists_tail
  obtain ⟨Γ', G', hI⟩ := h.fork hf hx
  generalize kernbase + k.phys.kmalloc.1 = t at hI ⊢
  -- the invariant of the kernel after the call has the new record once
  have hperm : (k.runningThread :: t :: M ++ D).Perm (t :: (k.runningThread :: M ++ D)) :=
    (List.Perm.swap ..).append_right D
  exact (List.nodup_cons.mp (hperm.nodup_iff.mp hI.nodup)).1

/-- A call that takes `x` off the ring, from the lists before and after it. -/
theorem Inv.clock_leaves {Γ' : Nat → Use} {L' D' G' : List Nat} {e : Clock.Event}
    (hI : Inv image Γ' L' D' G' k') (he : e.isTimer = false)
    (hl : (k.clock i j).leaves e = some x) (hcall : (k.clock i j).called e = k.clock i j)
    (hmem : ∀ a, a ∈ L' ↔ a ∈ L ∧ a ≠ x)
    (hkeep : ∀ a ∈ L', (k'.phys.tasks a).counters = (k.phys.tasks a).counters) :
    (k.clock i j).Steps L e (k'.clock i j) L' D' := by
  have hstays : ∀ a ∈ L, (k.clock i j).leaves e ≠ some a → a ∈ L' := fun a ha hne =>
    (hmem a).mpr ⟨ha, fun hc => hne (hl.trans (congrArg some hc.symm))⟩
  refine ⟨hI.clock_valid, hstays, fun a ha => .inl ((hmem a).mp ha).1, fun a ha hne => ?_⟩
  rw [Clock.countersAfter_of_not_timer he, hcall]
  exact hkeep a (hstays a ha hne)

/-- **A call that changes the ring** is an event that the clock admits, and does what the clock says
of it. -/
theorem Inv.clock_steps (h : Inv image Γ L D G k) {e : Event} (hok : k.Sound image e)
    (hen : k.Enough e) (hs : k.step e = some k') {e' : Clock.Event}
    (he : k.clockEvent e = some e') :
    (k.clock i j).Admits L D e' ∧
      ∃ D', (k.clock i j).Steps L e' (k'.clock i j) (k.ringAfter L e) D' := by
  have hx := hen k' hs
  -- who is on the ring after the call, and the invariant of the kernel for the ring itself
  have hmem := @Inv.mem_ringAfter _ _ L D G L k k' h (fun _ => Iff.rfl) e
    ⟨hok, hen, fun path found args envp hc => by subst hc; cases he⟩ hs
  obtain ⟨Γ', D', G', hI⟩ := h.step hok hen hs
  cases e with
  | fork u =>
    obtain ⟨⟨pid, k''⟩, hf, rfl⟩ := Option.map_eq_some_iff.mp hs
    obtain rfl := Option.some.inj he
    obtain ⟨hkeep, root, rsp, mmap, hchild⟩ := h.fork_keeps unlinked_counters hf hx
    simp only [Kernel.liveAfter, List.mem_cons] at hmem
    have hv := hI.clock_valid (i := i) (j := j)
    have hnew := h.fork_notMem hf hx
    generalize kernbase + k.phys.kmalloc.1 = t at hchild hmem hnew ⊢
    refine ⟨⟨hv.record t (List.mem_append_left D' ((hmem t).mpr (.inl rfl))), hnew⟩, D',
      .of_not_timer rfl hv (fun a ha _ => (hmem a).mpr (.inr ha)) (fun a ha => ?_) hkeep⟩
    rcases (hmem a).mp ha with rfl | ha
    · -- the child: its record has just been cleared
      exact .inr ⟨rfl, hchild.trans (counters_finishChild ..)⟩
    · exact .inl ha
  | exit =>
    rw [Kernel.clockEvent] at he
    split at he
    · cases he
    next hpid =>
    obtain rfl := Option.some.inj he
    have hkeep := h.leave_keeps unlinked_counters hs (.inl rfl)
    simp only [Kernel.liveAfter, if_neg hpid, mem_filter_ne] at hmem
    exact ⟨h.ne_singleton h.running_mem hpid _, D', hI.clock_leaves rfl rfl rfl hmem
      fun a ha => (hkeep a ha).2⟩
  | kill pid =>
    obtain ⟨x, hkill, rfl⟩ := Option.map_eq_some_iff.mp he
    have hkeep := h.leave_keeps unlinked_counters hs (.inr (.inl ⟨pid, rfl⟩))
    simp only [Kernel.liveAfter, hkill, Option.elim_some, mem_filter_ne] at hmem
    exact ⟨h.killed_mem hkill, D', hI.clock_leaves rfl rfl rfl hmem fun a ha => (hkeep a ha).2⟩
  | exitpid pid =>
    obtain ⟨x, hexit, rfl⟩ := Option.map_eq_some_iff.mp he
    have hkeep := h.leave_keeps unlinked_counters hs (.inr (.inr ⟨pid, rfl⟩))
    simp only [Kernel.liveAfter, hexit, Option.elim_some, mem_filter_ne] at hmem
    obtain ⟨hxL, hpid⟩ := h.exited_mem hexit
    exact ⟨⟨hxL, h.ne_singleton hxL hpid _⟩, D', hI.clock_leaves rfl rfl rfl hmem
      fun a ha => (hkeep a ha).2⟩
  | exec path found args envp => cases he
  | timer r => cases he
  | access v w => cases he

end Sbunix
