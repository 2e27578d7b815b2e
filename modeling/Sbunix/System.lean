import Sbunix.ForkSpace
import Sbunix.FaultSpace

/-!
# The kernel as a system

The events that act on the kernel (`Event`, `Kernel.step`), the conditions under which they do
what they should (`Kernel.Enough`, `Kernel.Sound`), and the invariant of its runs (`Inv`).

The invariant ties the run ring, the delete queue and the physical memory together: records are
kernel pages, every task on the ring has a page-table tree of its own, and what the trees
translate to are data pages in use.
-/

namespace Sbunix

open ByteMem Chain

/-! ### Events -/

/-- What happens to the kernel: a system call of the running task, a timer tick that switches, a
kill from the keyboard, or an access of the running program to its memory. -/
inductive Event
  | fork (u : UserRegs)
  | exec (path : List UInt8) (found : Option (Nat × Nat)) (args envp : List (List UInt8))
  | exit
  | kill (pid : Nat)
  | exitpid (pid : Int)
  | timer (r : SwitchRegs)
  | access (v : Nat) (write : Bool)

/-- What `_hndlr_isr14` decides to do. -/
inductive FaultCase
  | exit
  | demandZero
  | copyOnWrite
  | spin
  deriving DecidableEq

namespace Kernel

def step (k : Kernel) : Event → Option Kernel
  | .fork u => (k.fork u).map Prod.snd
  | .exec path found args envp => k.exec path found args envp
  | .exit => k.exit
  | .kill pid => k.kill pid
  | .exitpid pid => k.exitpid pid
  | .timer r => k.runNextTask r
  | .access v write => k.access v write

/-- The dispatch of `_hndlr_isr14`. -/
def faultCase (k : Kernel) (pagefaultAt errorCode : Nat) : FaultCase :=
  let p := errorCode % 2
  let rw := errorCode / 2 % 2
  let us := errorCode / 4 % 2
  if (pagefaultAt &&& frame = stackBorder ∨ errorCode / 8 ≠ 0) ∧ k.running.pidT ≠ 1 then .exit
  else if rw = 1 ∧ p = 0 then
    if k.isPartofCurrentVma (pagefaultAt &&& frame) then .demandZero
    else if us = 1 then .exit else .spin
  else if us = 1 ∧ rw = 1 ∧ p = 1 then .copyOnWrite
  else if us = 0 ∧ rw = 0 ∧ p = 0 then .spin
  else .exit

theorem hndlrIsr14_eq (k : Kernel) (pagefaultAt errorCode : Nat) :
    k.hndlrIsr14 pagefaultAt errorCode =
      match k.faultCase pagefaultAt errorCode with
      | .exit => k.exit
      | .demandZero => some (k.demandZero pagefaultAt)
      | .copyOnWrite => k.copyOnWrite pagefaultAt
      | .spin => none := by
  unfold hndlrIsr14 faultCase
  dsimp only
  -- `init` is not ended by an access to the border of its stack
  by_cases hpid : k.running.pidT = 1
  · simp only [hpid, ne_eq, not_true_eq_false, and_false, if_false]
    split_ifs <;> first | rfl | omega
  · simp only [ne_eq, hpid, not_false_eq_true, and_true]
    split_ifs <;> first | rfl | omega

/-- A task on the run ring. -/
def OnRing (k : Kernel) (a : Nat) : Prop := ∃ n, k.phys.next^[n] k.runningThread = a

/-- The tasks on the run ring behind the running one, in order. -/
def others (k : Kernel) : List Nat :=
  (collect k.phys.next (· == k.runningThread) walkFuel (k.phys.next k.runningThread)).getD []

/-- The pid of a record as a 64-bit argument. -/
def pidWord (k : Kernel) (a : Nat) : Nat := ((k.phys.tasks a).pidT % 2 ^ 64).toNat

/-- The task that `kill(pid)` finds. -/
def killed (k : Kernel) (pid : Nat) : Option Nat :=
  if pid = 1 then none else k.others.find? fun a => k.pidWord a == pid

/-- The task that `exitpid(pid)` finds: the running one comes last. -/
def exited (k : Kernel) (pid : Int) : Option Nat :=
  if pid = 1 then none
  else (k.others ++ [k.runningThread]).find? fun a => (k.phys.tasks a).pidT == pid

/-! ### Conditions -/

/-- **The sharing test of `FreePageEntries` is right for `task`**: when a page of `task` is in use
by another task on the ring, some other task maps it at its own physical address, which is where
the test looks. -/
def ReleaseSafe (k : Kernel) (task : Nat) : Prop :=
  ∀ pages, vmaPages (k.phys.tasks task).mmap = some pages → ∀ page ∈ pages, ∀ f,
    k.phys.MapsTo page.2 (k.phys.tasks task).regs.cr3 f →
    (∃ a v, k.OnRing a ∧ a ≠ task ∧ pml4Index v < 511 ∧
      k.phys.MapsTo v (k.phys.tasks a).regs.cr3 f) →
    ∃ a, k.OnRing a ∧ a ≠ task ∧ k.phys.MapsTo f (k.phys.tasks a).regs.cr3 f

/-- The step does not find memory exhausted. -/
def Enough (k : Kernel) (e : Event) : Prop :=
  ∀ k', k.step e = some k' → k'.phys.exhausted = false

/-- **The step stays clear of the defects.** Address spaces are released only where the sharing
test is right; `exec` is given a loadable file of the archive, which ends below `image`, and no
more arguments than the argument block holds; programs fault in the user half. -/
def Sound (image : Nat) (k : Kernel) : Event → Prop
  | .fork _ => True
  | .exec _ found args envp =>
    (∃ elf size, found = some (elf, size) ∧ elf + size ≤ image ∧
      Loadable k.phys.mem elf size) ∧ args.length ≤ 476 ∧ envp.length ≤ maxFrames
  | .exit => k.running.pidT ≠ 1 → k.ReleaseSafe k.runningThread
  | .kill pid => ∀ a, k.killed pid = some a → k.ReleaseSafe a
  | .exitpid pid => ∀ a, k.exited pid = some a → k.ReleaseSafe a
  | .timer _ => True
  | .access v write =>
    pml4Index v < 511 ∧
      (¬ k.phys.Permits v k.cr3 write → k.faultCase v (k.errorCode v write) = .exit →
        k.running.pidT ≠ 1 → k.ReleaseSafe k.runningThread)

end Kernel

/-! ### Records -/

/-- Two records that the invariant does not tell apart. -/
structure Task.Same (t t' : Task) : Prop where
  pidT : t'.pidT = t.pidT
  cr3 : t'.regs.cr3 = t.regs.cr3
  mmap : t'.mmap = t.mmap
  curr : t'.currAlarmCount = t.currAlarmCount
  expected : t'.expectedAlarmCount = t.expectedAlarmCount

theorem Task.Same.refl (t : Task) : t.Same t := ⟨rfl, rfl, rfl, rfl, rfl⟩

theorem Task.Same.trans {t t' t'' : Task} (h : t.Same t') (h' : t'.Same t'') : t.Same t'' :=
  ⟨h'.pidT.trans h.pidT, h'.cr3.trans h.cr3, h'.mmap.trans h.mmap, h'.curr.trans h.curr,
    h'.expected.trans h.expected⟩

/-- Only records have been written, and in them only what does not matter for the invariant. -/
structure Phys.Relinked (s s' : Phys) : Prop where
  mem : s'.mem = s.mem
  avail : s'.availFrames = s.availFrames
  exhausted : s'.exhausted = s.exhausted
  same : ∀ a, (s.tasks a).Same (s'.tasks a)

theorem Phys.Relinked.refl (s : Phys) : s.Relinked s := ⟨rfl, rfl, rfl, fun _ => .refl _⟩

theorem Phys.Relinked.trans {s s' s'' : Phys} (h : s.Relinked s') (h' : s'.Relinked s'') :
    s.Relinked s'' :=
  ⟨h'.mem.trans h.mem, h'.avail.trans h.avail, h'.exhausted.trans h.exhausted,
    fun a => (h.same a).trans (h'.same a)⟩

theorem Phys.relinked_setTask (s : Phys) {a : Nat} {t : Task} (h : (s.tasks a).Same t) :
    s.Relinked (s.setTask a t) := by
  refine ⟨rfl, rfl, rfl, fun b => ?_⟩
  by_cases hb : b = a
  · subst hb
    simpa only [Phys.setTask, Function.update_self] using h
  · simp only [Phys.setTask, Function.update_of_ne hb]
    exact .refl _

theorem Phys.relinked_setNext (s : Phys) (a b : Nat) : s.Relinked (s.setNext a b) :=
  s.relinked_setTask ⟨rfl, rfl, rfl, rfl, rfl⟩

@[simp] theorem Phys.setTask_exhausted (s : Phys) (a : Nat) (t : Task) :
    (s.setTask a t).exhausted = s.exhausted := rfl

@[simp] theorem Phys.setNext_exhausted (s : Phys) (a b : Nat) :
    (s.setNext a b).exhausted = s.exhausted := rfl

theorem Phys.next_setTask (s : Phys) (a : Nat) (t : Task) :
    (s.setTask a t).next = Function.update s.next a t.next := by
  funext b
  by_cases hb : b = a
  · subst hb
    simp only [Phys.next, Phys.setTask, Function.update_self]
  · simp only [Phys.next, Phys.setTask, Function.update_of_ne hb]

@[simp] theorem Phys.next_setNext (s : Phys) (a b : Nat) :
    (s.setNext a b).next = Function.update s.next a b :=
  s.next_setTask a _

theorem Phys.next_setTask_of_eq (s : Phys) {a : Nat} {t : Task} (h : t.next = (s.tasks a).next) :
    (s.setTask a t).next = s.next := by
  rw [Phys.next_setTask, h]
  exact Function.update_eq_self a s.next

/-- Translations and typings do not depend on records. -/
theorem Phys.Relinked.leaf {s s' : Phys} (h : s.Relinked s') (v r : Nat) :
    s'.leaf v r = s.leaf v r :=
  Phys.leaf_congr h.mem v r

theorem Phys.Relinked.typed {S : Shape} {s s' : Phys} {Γ : Nat → Use} (h : s.Relinked s')
    (hT : Typed S s Γ) : Typed S s' Γ :=
  hT.of_agree (fun _ _ _ _ x _ _ => congrFun h.mem x) (fun _ _ _ => Iff.rfl) fun f hf => by
    rw [h.avail]
    exact hT.owned f hf

/-! ### The invariant -/

/-- **The address spaces of the tasks `L`.** `R` are the records that are kept, and `G` the roots
of the page-table trees there are. -/
structure Spaces (image : Nat) (Γ : Nat → Use) (L R G : List Nat) (pml4 : Nat) (s : Phys) :
    Prop where
  sub : ∀ a ∈ L, a ∈ R
  /-- Records lie in kernel pages. -/
  record : ∀ a ∈ R, ∃ f, a = kernbase + f ∧ Γ f = .kernel
  typed : Typed (userShape pml4 G) s Γ
  /-- Every task has a tree, -/
  root : ∀ a ∈ L, (s.tasks a).regs.cr3 ∈ G ∧ (s.tasks a).regs.cr3 ≠ pml4
  /-- … of its own, -/
  own : ∀ a ∈ L, ∀ b ∈ L, (s.tasks a).regs.cr3 = (s.tasks b).regs.cr3 → a = b
  /-- … which translates to data pages. -/
  leaves : ∀ a ∈ L, Leaves 511 (IsData Γ) s (s.tasks a).regs.cr3
  pages : ∀ a ∈ L, UserPages (s.tasks a).mmap
  /-- No alarm is due. -/
  alarms : ∀ a ∈ L, (s.tasks a).currAlarmCount ≤ (s.tasks a).expectedAlarmCount
  /-- The kernel image. -/
  image : ∀ f, f % 4096 = 0 → f < image → Γ f = .kernel

/-- **The invariant of the kernel.** `L` are the tasks on the ring, from the running one on, and
`D` those on the delete queue. -/
structure Inv (image : Nat) (Γ : Nat → Use) (L D G : List Nat) (k : Kernel) : Prop extends
    Spaces image Γ L (L ++ D) G k.pml4 k.phys where
  ring : Ring k.phys.next k.runningThread L
  queue : Seg k.phys.next k.deleteQueue D 0
  nodup : (L ++ D).Nodup
  cr3 : k.cr3 = k.running.regs.cr3
  /-- `init` is there. -/
  init : ∃ a ∈ L, (k.phys.tasks a).pidT = 1

variable {image : Nat} {Γ Γ' : Nat → Use} {L L' R R' D D' G G' : List Nat} {k k' : Kernel}
  {pml4 : Nat} {s s' : Phys}

theorem Spaces.node (h : Spaces image Γ L R G pml4 s) {a : Nat} (ha : a ∈ R) :
    ∃ n < maxFrames, a = kernbase + n * 4096 := by
  obtain ⟨f, rfl, hf⟩ := h.record a ha
  obtain ⟨hpage, hlt, -⟩ := h.typed.owned f (by simp [hf])
  exact ⟨f / 4096, hlt, by rw [Nat.div_mul_cancel (Nat.dvd_of_mod_eq_zero hpage)]⟩

/-- Records are few. -/
theorem Spaces.length_lt (h : Spaces image Γ L R G pml4 s) (hnd : R.Nodup) :
    R.length < walkFuel :=
  Nat.lt_succ_of_le (length_le_of_nodes (by decide) hnd fun _ => h.node)

theorem Inv.length_lt (h : Inv image Γ L D G k) : (L ++ D).length < walkFuel :=
  h.toSpaces.length_lt h.nodup

theorem Inv.onRing_iff (h : Inv image Γ L D G k) {a : Nat} : k.OnRing a ↔ a ∈ L :=
  h.ring.mem_iff_iterate.symm

theorem Inv.running_mem (h : Inv image Γ L D G k) : k.runningThread ∈ L := h.ring.mem

theorem Inv.others_eq (h : Inv image Γ (k.runningThread :: L) D G k) : k.others = L := by
  -- the walk comes back to the running task, and the ring is shorter than the bound
  have hnd := List.nodup_cons.mp h.ring.nodup
  have hlen := h.length_lt
  have hc := collect_of_seg (q := (· == k.runningThread)) (n := walkFuel) h.ring.seg.2
    (fun y hy => beq_false_of_ne fun hc => hnd.1 (hc ▸ hy)) (beq_self_eq_true _)
    (by simp only [List.length_append, List.length_cons] at hlen; omega)
  simp only [Kernel.others, hc, Option.getD_some]

/-- **Relinking** keeps the address spaces, also of fewer tasks. -/
theorem Spaces.relink (h : Spaces image Γ L R G pml4 s) (hs : s.Relinked s')
    (hL : ∀ a ∈ L', a ∈ L) (hR : ∀ a ∈ R', a ∈ R) (hsub : ∀ a ∈ L', a ∈ R') :
    Spaces image Γ L' R' G pml4 s' where
  sub := hsub
  record a ha := h.record a (hR a ha)
  typed := hs.typed h.typed
  root a ha := by
    rw [(hs.same a).cr3]
    exact h.root a (hL a ha)
  own a ha b hb hab := by
    rw [(hs.same a).cr3, (hs.same b).cr3] at hab
    exact h.own a (hL a ha) b (hL b hb) hab
  leaves a ha v e hv he := by
    rw [(hs.same a).cr3, hs.leaf] at he
    exact h.leaves a (hL a ha) v e hv he
  pages a ha := by
    rw [(hs.same a).mmap]
    exact h.pages a (hL a ha)
  alarms a ha := by
    rw [(hs.same a).curr, (hs.same a).expected]
    exact h.alarms a (hL a ha)
  image := h.image

/-- **Building** keeps them, too; the trees that are built on are looked at separately. -/
theorem Spaces.builds {W : Nat → Prop} (h : Spaces image Γ L R G pml4 s)
    (hB : Builds (userShape pml4 G') W s Γ s' Γ') (hG : ∀ r ∈ G, r ∈ G')
    (hW : ∀ a ∈ L, W (s.tasks a).regs.cr3 → Leaves 511 (IsData Γ') s' (s.tasks a).regs.cr3) :
    Spaces image Γ' L R G' pml4 s' ∧ ∀ a ∈ R, s'.tasks a = s.tasks a := by
  -- records lie in pages that have a use already
  have htasks : ∀ a ∈ R, s'.tasks a = s.tasks a := fun a ha => by
    obtain ⟨f, rfl, hf⟩ := h.record a ha
    exact hB.tasks f (by simp [hf])
  have hL : ∀ a ∈ L, s'.tasks a = s.tasks a := fun a ha => htasks a (h.sub a ha)
  refine ⟨⟨h.sub, fun a ha => ?_, hB.typed, fun a ha => ?_, fun a ha b hb hab => ?_,
    fun a ha => ?_, fun a ha => ?_, fun a ha => ?_, fun f hal hf => ?_⟩, htasks⟩
  · obtain ⟨f, hf, hΓ⟩ := h.record a ha
    exact ⟨f, hf, by rw [hB.ext f (by simp [hΓ]), hΓ]⟩
  · rw [hL a ha]
    exact ⟨hG _ (h.root a ha).1, (h.root a ha).2⟩
  · rw [hL a ha, hL b hb] at hab
    exact h.own a ha b hb hab
  · -- a tree that is built on, or one that keeps its translations
    rw [hL a ha]
    by_cases hWa : W (s.tasks a).regs.cr3
    · exact hW a ha hWa
    · exact (hB.leaves_other h.typed (Or.inr (h.root a ha).1) hWa (h.leaves a ha)).mono
        fun f hf => hB.data f hf
  · rw [hL a ha]
    exact h.pages a ha
  · rw [hL a ha]
    exact h.alarms a ha
  · rw [hB.ext f (by rw [h.image f hal hf]; simp), h.image f hal hf]

/-- **Releasing** keeps the address spaces of the other tasks, as long as what is released is
nothing they map. -/
theorem Spaces.gone {F : Nat → Prop} {task : Nat} (h : Spaces image Γ L R G pml4 s)
    (hgone : Gone F (s.tasks task).regs.cr3 s s') (hF : ∀ f, F f → Γ f = .data)
    (htask : task ∈ L) (hL : ∀ a ∈ L', a ∈ L ∧ a ≠ task)
    (hsafe : ∀ a ∈ L', ∀ v f, pml4Index v < 511 → s.MapsTo v (s.tasks a).regs.cr3 f → ¬ F f) :
    Spaces image (releasedTyping Γ (s.tasks task).regs.cr3 F) L' R
      (G.filter (· ≠ (s.tasks task).regs.cr3)) pml4 s' ∧ ∀ a ∈ R, s'.tasks a = s.tasks a := by
  have htasks : ∀ a ∈ R, s'.tasks a = s.tasks a := fun a ha => by
    obtain ⟨f, rfl, hf⟩ := h.record a ha
    exact hgone.tasks f fun hc => by simp [hF f hc] at hf
  have hs : ∀ a ∈ L', s'.tasks a = s.tasks a := fun a ha => htasks a (h.sub a (hL a ha).1)
  refine ⟨⟨fun a ha => h.sub a (hL a ha).1, fun a ha => ?_, ?_, fun a ha => ?_,
    fun a ha b hb hab => ?_, fun a ha v e hv he => ?_, fun a ha => ?_, fun a ha => ?_,
    fun f hal hf => releasedTyping_kernel hF (h.image f hal hf)⟩, htasks⟩
  · obtain ⟨f, hf, hΓ⟩ := h.record a ha
    exact ⟨f, hf, releasedTyping_kernel hF hΓ⟩
  · exact hgone.typed h.typed hF (h.root task htask).1 (h.root task htask).2 fun r => by simp
  · rw [hs a ha]
    refine ⟨List.mem_filter.mpr ⟨(h.root a (hL a ha).1).1, ?_⟩, (h.root a (hL a ha).1).2⟩
    simpa using fun hc => (hL a ha).2 (h.own a (hL a ha).1 task htask hc)
  · rw [hs a ha, hs b hb] at hab
    exact h.own a (hL a ha).1 b (hL b hb).1 hab
  · rw [hs a ha, hgone.leaf h.typed hF (Or.inr (h.root a (hL a ha).1).1) hv] at he
    obtain rfl | ⟨f, hf, hfe⟩ := h.leaves a (hL a ha).1 v e hv he
    · exact Or.inl rfl
    · have hmap : s.MapsTo v (s.tasks a).regs.cr3 f :=
        ((h.leaves a (hL a ha).1).mapsTo_iff h.typed hv).mpr ⟨hf, e, he, hfe⟩
      exact Or.inr ⟨f, (releasedTyping_data).mpr ⟨hf, hsafe a ha v f hv hmap⟩, hfe⟩
  · rw [hs a ha]
    exact h.pages a (hL a ha).1
  · rw [hs a ha]
    exact h.alarms a (hL a ha).1

/-- **The state in which a task of the ring is released.** -/
theorem Inv.teardown (h : Inv image Γ L D G k) {task : Nat} {others : List Nat}
    (hr : Ring k.phys.next task (task :: others)) (hp : (task :: others).Perm L) :
    Teardown (userShape k.pml4 G) k.phys Γ task others where
  typed := h.typed
  top := rfl
  seg := hr.seg.2
  notMem := (List.nodup_cons.mp hr.nodup).1
  len := by
    have := h.length_lt
    have := hp.length_eq
    simp only [List.length_append, List.length_cons] at *
    omega
  record a ha := h.record a (List.mem_append_left D (hp.mem_iff.mp ha))
  root a ha := Or.inr (h.root a (hp.mem_iff.mp ha)).1
  leaves a ha := h.leaves a (hp.mem_iff.mp ha)
  pages := h.pages task (hp.mem_iff.mp (by simp))

end Sbunix
