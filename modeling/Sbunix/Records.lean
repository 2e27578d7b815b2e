import Sbunix.RunRing

/-!
# Fields of the records

What a step does to a field that scheduling does not write, such as a pid or a counter
(`Quiet`): the tasks that stay on the ring keep it. The new task of `fork` and `exec` is said
separately, by what is written to its record.

* `Inv.fork_keeps`, `Inv.exec_keeps` — the calls that make a task;
* `Inv.other_keeps` — the other ones.
-/

namespace Sbunix

open ByteMem Chain

variable {image : Nat} {Γ Γ' : Nat → Use} {L M D G : List Nat} {k k' : Kernel} {s s' : Phys}
  {x r : Nat} {β : Type} {π : Task → β}

/-! ### Records -/

/-- What `π` reads is not written by scheduling: links, registers and states, and what the delivery
of an alarm clears. -/
structure Quiet (π : Task → β) : Prop where
  next : ∀ t n, π { t with next := n } = π t
  regs : ∀ t r, π { t with regs := r } = π t
  alarm : ∀ t, π { t with functionPointer := 0, currAlarmCount := 0, expectedAlarmCount := 0 } = π t

/-- What `π` reads is no link and no register. -/
structure Unlinked (π : Task → β) : Prop where
  next : ∀ t n, π { t with next := n } = π t
  regs : ∀ t r, π { t with regs := r } = π t

theorem Quiet.unlinked (hπ : Quiet π) : Unlinked π := ⟨hπ.next, hπ.regs⟩

/-- All records agree on `π`. -/
def Phys.SameIn (π : Task → β) (s s' : Phys) : Prop := ∀ a, π (s'.tasks a) = π (s.tasks a)

theorem Phys.SameIn.refl (s : Phys) : s.SameIn π s := fun _ => rfl

theorem Phys.SameIn.trans {s'' : Phys} (h : s.SameIn π s') (h' : s'.SameIn π s'') :
    s.SameIn π s'' :=
  fun a => (h' a).trans (h a)

theorem Phys.sameIn_of_tasks (h : s'.tasks = s.tasks) : s.SameIn π s' := fun a => by rw [h]

theorem Phys.sameIn_setTask (s : Phys) {a : Nat} {t : Task} (h : π t = π (s.tasks a)) :
    s.SameIn π (s.setTask a t) := by
  intro b
  by_cases hb : b = a
  · subst hb
    simpa only [Phys.setTask, Function.update_self] using h
  · simp only [Phys.setTask, Function.update_of_ne hb]

theorem Unlinked.setNext (hπ : Unlinked π) (s : Phys) (a b : Nat) : s.SameIn π (s.setNext a b) :=
  s.sameIn_setTask (hπ.next _ _)

theorem Unlinked.activate (hπ : Unlinked π) (k : Kernel) (a : Nat) :
    k.phys.SameIn π (k.activate a).phys := by
  unfold Kernel.activate
  dsimp only
  split
  · exact k.phys.sameIn_setTask (hπ.regs _ _)
  · exact k.phys.sameIn_setTask (hπ.regs _ _)

theorem Unlinked.addToDeleteQueue (hπ : Unlinked π) (hs : k.addToDeleteQueue x = some k') :
    k.phys.SameIn π k'.phys := by
  unfold Kernel.addToDeleteQueue at hs
  split at hs
  · obtain rfl := Option.some.inj hs
    exact hπ.setNext k.phys x 0
  · simp only [Option.bind_eq_bind] at hs
    obtain ⟨temp, -, hs⟩ := Option.bind_eq_some_iff.mp hs
    obtain rfl := Option.some.inj hs
    exact (hπ.setNext k.phys temp x).trans (hπ.setNext _ x 0)

/-- The timer. -/
theorem Quiet.runNextTask (hπ : Quiet π) {regs : SwitchRegs} (hs : k.runNextTask regs = some k') :
    k.phys.SameIn π k'.phys := by
  unfold Kernel.runNextTask at hs
  dsimp only at hs
  set k₁ := k.modifyTask k.runningThread _ with hk₁
  have h₁ : k.phys.SameIn π k₁.phys := k.phys.sameIn_setTask (hπ.regs _ _)
  set next := k₁.phys.next k₁.runningThread with hnext
  set k₂ := { k₁ with runningThread := next }.activate next with hk₂
  have h₂ : k.phys.SameIn π k₂.phys :=
    h₁.trans (hπ.unlinked.activate { k₁ with runningThread := next } next)
  split at hs
  · simp only [Option.bind_eq_bind] at hs
    obtain ⟨k₃, hk₃, hs⟩ := Option.bind_eq_some_iff.mp hs
    obtain rfl := Option.some.inj hs
    unfold Kernel.changeToAlarmFunction at hk₃
    obtain ⟨a, -, rfl⟩ := Option.map_eq_some_iff.mp hk₃
    exact h₂.trans (Phys.sameIn_setTask _ (hπ.alarm _))
  · simp only [Option.bind_eq_bind, Option.bind_some] at hs
    obtain rfl := Option.some.inj hs
    exact h₂

theorem Unlinked.deleteRunningThreadAndJump (hπ : Unlinked π)
    (hs : k.deleteRunningThreadAndJump x = some k') : k.phys.SameIn π k'.phys := by
  unfold Kernel.deleteRunningThreadAndJump at hs
  simp only [Option.bind_eq_bind] at hs
  obtain ⟨temp, -, hs⟩ := Option.bind_eq_some_iff.mp hs
  obtain rfl := Option.some.inj hs
  refine Phys.SameIn.trans ?_ (hπ.activate _ x)
  exact (hπ.setNext k.phys x _).trans (hπ.setNext _ temp x)

theorem makeParentCr3asReadOnly_tasks {cr3 : Nat} {mmap : List Vma}
    (hs : s.makeParentCr3asReadOnly mmap cr3 = some s') : s'.tasks = s.tasks := by
  obtain ⟨pages, -, hp⟩ := Option.bind_eq_some_iff.mp hs
  obtain rfl := Option.some.inj hp
  clear hs hp
  induction pages generalizing s with
  | nil => rfl
  | cons page pages ih =>
    rw [List.foldl_cons, ih]
    unfold Phys.protectPage
    split
    · unfold Phys.markPageAsRW
      split <;> rfl
    · rfl

theorem tasks_prepareInitialKernelStack (s : Phys) (a : Nat) (t : Task) (regs : Registers) :
    ((s.setTask a t).prepareInitialKernelStack regs).tasks a = t := by
  change Function.update s.tasks a t a = t
  exact Function.update_self ..

/-! ### Releasing -/

/-- Records stay when an address space is released. -/
theorem Inv.released_tasks (h : Inv image Γ L D G k) (hx : x ∈ L)
    (hs : k.phys.freePageEntries x = some s) :
    ∀ a ∈ L ++ D, (s.freePageTables (s.tasks x).regs.cr3).tasks a = k.phys.tasks a := by
  obtain ⟨pages, hp, -⟩ := Option.bind_eq_some_iff.mp hs
  obtain ⟨hring, hperm⟩ := ringWithout_ring h.ring hx
  have hT := h.teardown hring hperm
  obtain ⟨s₂, hs₂, -, hgone⟩ := hT.gone (h.root x hx).2 hp
  obtain rfl : s = s₂ := Option.some.inj (hs.symm.trans hs₂)
  intro a ha
  obtain ⟨f, rfl, hf⟩ := h.record a ha
  refine hgone.tasks f fun hc => ?_
  rw [hT.freed_data (fun page hm => hT.pages.page hp hm) hc] at hf
  cases hf

theorem onRing_of_find {q : Nat → Bool} {n a : Nat} (ha : k.OnRing a)
    (hf : find k.phys.next q n a = some x) : k.OnRing x := by
  induction n generalizing a with
  | zero => cases hf
  | succ n ih =>
    rw [find] at hf
    split at hf
    · obtain rfl := Option.some.inj hf
      exact ha
    · obtain ⟨i, hi⟩ := ha
      refine ih ⟨i + 1, ?_⟩ hf
      rw [Function.iterate_succ_apply', hi]

/-- Ending a task writes its `state`, and no field that `π` reads of any record. -/
theorem Inv.terminate_records (hπ : Unlinked π) (h : Inv image Γ L D G k) (hx : x ∈ L)
    (hs : k.terminate x = some k') : ∀ a ∈ L ++ D, π (k'.phys.tasks a) =
      π ((k.modifyTask x fun t => { t with state := 0 }).phys.tasks a) := by
  unfold Kernel.terminate at hs
  set k₁ := k.modifyTask x _ with hk₁
  have h₁ : k.phys.Relinked k₁.phys := k.phys.relinked_setTask ⟨rfl, rfl, rfl, rfl, rfl⟩
  have hn₁ : k₁.phys.next = k.phys.next := k.phys.next_setTask_of_eq rfl
  have hI₁ : Inv image Γ L D G k₁ := h.relink h₁ rfl (fun _ ha => ha) (fun _ ha => ha) h.nodup
    (hn₁ ▸ h.ring) (hn₁ ▸ h.queue) (by rw [Kernel.running, (h₁.same _).cr3]; exact h.cr3) h.init
  simp only [Option.bind_eq_bind] at hs
  obtain ⟨s₂, hs₂, hs⟩ := Option.bind_eq_some_iff.mp hs
  -- records survive the release; then only links are written
  have htasks := hI₁.released_tasks hx hs₂
  generalize s₂.freePageTables (s₂.tasks x).regs.cr3 = s₃ at htasks hs
  obtain ⟨temp, -, hs⟩ := Option.bind_eq_some_iff.mp hs
  obtain ⟨k₄, hk₄, hs⟩ := Option.bind_eq_some_iff.mp hs
  obtain rfl := Option.some.inj hs
  have hkeep := hπ.addToDeleteQueue hk₄
  intro a ha
  rw [← htasks a ha]
  exact ((hπ.setNext s₃ temp _).trans (hkeep.trans (hπ.activate k₄ _))) a

/-- **Ending a task** keeps the fields of the others. -/
theorem Inv.terminate_keeps (hπ : Unlinked π) (h : Inv image Γ L D G k) (hx : x ∈ L)
    (hs : k.terminate x = some k') :
    ∀ a ∈ L, a ≠ x → π (k'.phys.tasks a) = π (k.phys.tasks a) := by
  intro a ha hax
  rw [h.terminate_records hπ hx hs a (List.mem_append_left D ha)]
  exact congrArg π (Function.update_of_ne hax _ _)

/-- **`kill`** keeps the fields of all. -/
theorem Inv.kill_keeps (hπ : Unlinked π) (h : Inv image Γ L D G k) {pid : Nat}
    (hs : k.kill pid = some k') : ∀ a ∈ L ++ D, π (k'.phys.tasks a) = π (k.phys.tasks a) := by
  unfold Kernel.kill at hs
  split at hs
  · obtain rfl := Option.some.inj hs
    exact fun a _ => rfl
  · simp only [Option.bind_eq_bind] at hs
    obtain ⟨task, hfind, hs⟩ := Option.bind_eq_some_iff.mp hs
    split at hs
    · obtain rfl := Option.some.inj hs
      exact fun a _ => rfl
    · obtain ⟨s₂, hs₂, hs⟩ := Option.bind_eq_some_iff.mp hs
      -- the victim is the successor of a task on the ring
      obtain ⟨i, hi⟩ := onRing_of_find ⟨0, rfl⟩ hfind
      have hx : k.phys.next task ∈ L := by
        refine h.onRing_iff.mp ⟨i + 1, ?_⟩
        rw [Function.iterate_succ_apply', hi]
      have htasks := h.released_tasks hx hs₂
      have hkeep := hπ.addToDeleteQueue hs
      intro a ha
      rw [← htasks a ha]
      exact ((hπ.setNext _ task _).trans hkeep) a

/-! ### New tasks -/

/-- **`fork`** keeps the fields of the records there are, and of the one that `createChildTask` has
made. -/
theorem Inv.fork_records (hπ : Unlinked π) (h : Inv image Γ L D G k) {u : UserRegs} {pid : Int}
    (hs : k.fork u = some (pid, k')) (hx : k'.phys.exhausted = false) :
    (∀ a ∈ L ++ D, π (k'.phys.tasks a) = π (k.phys.tasks a)) ∧
    ∃ root kernelRsp mmap, π (k'.phys.tasks (kernbase + k.phys.kmalloc.1)) =
      π (Kernel.finishChild (Kernel.initChild Task.zeroed (intSucc k.pidCount) k.running.pidT u
        root) k.running u kernelRsp mmap) := by
  unfold Kernel.fork at hs
  simp only [Option.bind_eq_bind] at hs
  obtain ⟨k₁, hk₁, hs⟩ := Option.bind_eq_some_iff.mp hs
  obtain ⟨s, hmake, hs⟩ := Option.bind_eq_some_iff.mp hs
  simp only [Option.pure_def, Option.some.injEq, Prod.mk.injEq] at hs
  obtain ⟨hpid, rfl⟩ := hs
  have hx₁ : k₁.phys.exhausted = false := by
    rw [makeParentCr3asReadOnly_exhausted hmake] at hx
    exact hx
  obtain ⟨root, s₁, Γ₁, s₂, Γ₂, Γ', g, hc, -, -, stack, hrec, -⟩ := h.childNodes hk₁ hx₁
  obtain ⟨-, htasks, -⟩ := h.newTask (h.childTask hc)
  have hkeep : k₁.phys.SameIn π s := by
    have hq := (hπ.setNext k₁.phys (kernbase + k.phys.kmalloc.1)
      (k₁.phys.next k₁.runningThread)).trans
      (hπ.setNext _ k₁.runningThread (kernbase + k.phys.kmalloc.1))
    exact hq.trans (Phys.sameIn_of_tasks (makeParentCr3asReadOnly_tasks hmake))
  refine ⟨fun a ha => ?_, root, _, _, (hkeep _).trans (congrArg π hrec)⟩
  rw [← htasks a ha]
  exact hkeep a

/-- … of the tasks on the ring among them. -/
theorem Inv.fork_keeps (hπ : Unlinked π) (h : Inv image Γ L D G k) {u : UserRegs} {pid : Int}
    (hs : k.fork u = some (pid, k')) (hx : k'.phys.exhausted = false) :
    (∀ a ∈ L, π (k'.phys.tasks a) = π (k.phys.tasks a)) ∧
    ∃ root kernelRsp mmap, π (k'.phys.tasks (kernbase + k.phys.kmalloc.1)) =
      π (Kernel.finishChild (Kernel.initChild Task.zeroed (intSucc k.pidCount) k.running.pidT u
        root) k.running u kernelRsp mmap) := by
  obtain ⟨hkeep, hchild⟩ := h.fork_records hπ hs hx
  exact ⟨fun a ha => hkeep a (List.mem_append_left D ha), hchild⟩

/-- **`exec`** keeps the fields of the records that were there, and makes one. -/
theorem Inv.exec_records (hπ : Unlinked π) (h : Inv image Γ L D G k) {path : List UInt8}
    {found : Option (Nat × Nat)} {args envp : List (List UInt8)}
    (hok : k.Sound image (.exec path found args envp))
    (hs : k.exec path found args envp = some k') (hx : k'.phys.exhausted = false) :
    (∀ a ∈ L ++ D, π (k'.phys.tasks a) = π (k.phys.tasks a)) ∧
    (∃ t old entryPoint cr3 kernelRsp fd mmap,
      π (k'.phys.tasks (kernbase + k.phys.kmalloc.1)) =
        π (Kernel.createNewExecTask t old entryPoint cr3 kernelRsp fd path mmap)) ∧
    kernbase + k.phys.kmalloc.1 ∉ L := by
  obtain ⟨⟨elf, size, rfl, helf, hL⟩, hargs, henvp⟩ := hok
  obtain ⟨root, k₂, Γ', hn, -, hjump, -, hne, -⟩ := h.newImage helf hL hargs henvp hs hx
  obtain ⟨-, htasks, hnot⟩ := h.newTask hn
  have hkeep := hπ.deleteRunningThreadAndJump hjump
  refine ⟨fun a ha => ?_, ?_, fun hc => hnot (List.mem_append_left D hc)⟩
  · rw [← htasks a ha]
    exact hkeep a
  -- what `createNewExecTask` writes
  unfold Kernel.exec at hs
  dsimp only at hs
  rw [if_neg hne] at hs
  unfold Kernel.execLoaded at hs
  simp only [Option.bind_eq_bind] at hs
  obtain ⟨s₁, -, hs⟩ := Option.bind_eq_some_iff.mp hs
  split at hs
  · cases hs
  · have hkeep' := hπ.deleteRunningThreadAndJump hs (kernbase + k.phys.kmalloc.1)
    exact ⟨_, _, _, _, _, _, _, hkeep'.trans
      (congrArg π (tasks_prepareInitialKernelStack _ _ _ _))⟩

theorem Inv.exec_keeps (hπ : Unlinked π) (h : Inv image Γ L D G k) {path : List UInt8}
    {found : Option (Nat × Nat)} {args envp : List (List UInt8)}
    (hok : k.Sound image (.exec path found args envp))
    (hs : k.exec path found args envp = some k') (hx : k'.phys.exhausted = false) :
    (∀ a ∈ L, π (k'.phys.tasks a) = π (k.phys.tasks a)) ∧
    (∃ t old entryPoint cr3 kernelRsp fd mmap,
      π (k'.phys.tasks (kernbase + k.phys.kmalloc.1)) =
        π (Kernel.createNewExecTask t old entryPoint cr3 kernelRsp fd path mmap)) ∧
    kernbase + k.phys.kmalloc.1 ∉ L := by
  obtain ⟨hkeep, hnew⟩ := h.exec_records hπ hok hs hx
  exact ⟨fun a ha => hkeep a (List.mem_append_left D ha), hnew⟩

/-- **A call that ends a task** keeps the fields of those that stay on the ring. -/
theorem Inv.leave_keeps (hπ : Unlinked π) (h : Inv image Γ L D G k) {e : Event}
    (hs : k.step e = some k') (he : e = .exit ∨ (∃ pid, e = .kill pid) ∨ ∃ pid, e = .exitpid pid) :
    ∀ a ∈ k.ringAfter L e, a ∈ L ∧ π (k'.phys.tasks a) = π (k.phys.tasks a) := by
  have hnd := h.ring.nodup
  rcases he with rfl | ⟨pid, rfl⟩ | ⟨pid, rfl⟩
  case inl =>
    replace hs : k.exit = some k' := hs
    unfold Kernel.exit at hs
    rw [Kernel.ringAfter]
    split at hs
    · next hpid =>
      obtain rfl := Option.some.inj hs
      rw [if_pos hpid]
      exact fun a ha => ⟨ha, rfl⟩
    · next hpid =>
      have hkeep := h.terminate_keeps hπ h.running_mem hs
      rw [if_neg hpid]
      intro a ha
      obtain ⟨haL, hne⟩ := (mem_ringWithout hnd h.running_mem).mp ha
      exact ⟨haL, hkeep a haL hne⟩
  case inr.inl =>
    have hkeep := h.kill_keeps hπ hs
    intro a ha
    -- the ring after `kill` is part of the ring before
    have haL : a ∈ L := by
      rw [Kernel.ringAfter] at ha
      cases hk : k.killed pid with
      | none =>
        rw [hk] at ha
        exact ha
      | some x =>
        rw [hk] at ha
        exact List.mem_of_mem_erase ha
    exact ⟨haL, hkeep a (List.mem_append_left D haL)⟩
  case inr.inr =>
    replace hs : k.exitpid pid = some k' := hs
    unfold Kernel.exitpid at hs
    rw [Kernel.ringAfter]
    split at hs
    · next hpid =>
      obtain rfl := Option.some.inj hs
      rw [show k.exited pid = none by rw [Kernel.exited, if_pos hpid]]
      exact fun a ha => ⟨ha, rfl⟩
    · next hpid =>
      obtain ⟨x, hx, hfind, hex⟩ := h.exitpid_find hpid
      rw [hfind, Option.bind_eq_bind, Option.bind_some] at hs
      split at hs
      · next hne =>
        obtain rfl := Option.some.inj hs
        rw [hex, if_neg hne]
        exact fun a ha => ⟨ha, rfl⟩
      · next heq =>
        rw [hex, if_pos (not_not.mp heq)]
        have hkeep := h.terminate_keeps hπ hx hs
        intro a ha
        obtain ⟨haL, hne⟩ := (mem_ringWithout hnd hx).mp ha
        exact ⟨haL, hkeep a haL hne⟩

/-- **The other steps** keep the fields of the tasks that stay on the ring. -/
theorem Inv.other_keeps (hπ : Quiet π) (h : Inv image Γ L D G k) {e : Event}
    (hs : k.step e = some k') (hfork : ∀ u, e ≠ .fork u)
    (hexec : ∀ path found args envp, e ≠ .exec path found args envp)
    (haccess : ∀ v w, e ≠ .access v w) :
    ∀ a ∈ k.ringAfter L e, a ∈ L ∧ π (k'.phys.tasks a) = π (k.phys.tasks a) := by
  cases e with
  | fork u => exact absurd rfl (hfork u)
  | exec path found args envp => exact absurd rfl (hexec path found args envp)
  | access v w => exact absurd rfl (haccess v w)
  | exit => exact h.leave_keeps hπ.unlinked hs (.inl rfl)
  | kill pid => exact h.leave_keeps hπ.unlinked hs (.inr (.inl ⟨pid, rfl⟩))
  | exitpid pid => exact h.leave_keeps hπ.unlinked hs (.inr (.inr ⟨pid, rfl⟩))
  | timer r =>
    have hkeep := hπ.runNextTask hs
    intro a ha
    refine ⟨?_, hkeep a⟩
    rw [Kernel.ringAfter] at ha
    rcases List.mem_append.mp ha with ha | ha
    · exact List.mem_of_mem_tail ha
    · exact List.mem_of_mem_take ha

end Sbunix
