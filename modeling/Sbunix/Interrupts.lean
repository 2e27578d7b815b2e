import Sbunix.Scheduling

/-!
# Interrupts and the registers of user programs

What happens to the registers of a user program between an interrupt and its next instruction. They
are in three places: the frame that the CPU pushes on the kernel stack of the task, the `switchR*`
globals of `_timer_intr`, and the record of the task, from which `_moveToNextProcess` loads them.

`_moveToNextProcess` leaves in `rsi` the address of the record and does not load `r8` to `r15` at
all; `_timer_intr` does not save `r8` to `r11`; and `exitpid` saves nothing of the task that the
keyboard has interrupted. Interrupts are transparent in runs that do not depend on any of this
(`interrupts_transparent`).
-/

namespace Sbunix

open Runs

/-- The general registers, but for `rsp`. -/
inductive Gpr
  | rax | rbx | rcx | rdx | rsi | rdi | rbp
  | r8 | r9 | r10 | r11 | r12 | r13 | r14 | r15
  deriving DecidableEq

/-- The registers of a user program. -/
structure Context where
  rip : Nat
  rsp : Nat
  rflags : Nat
  gpr : Gpr → Nat

/-- What the CPU pushes, apart from the segment selectors. -/
structure Frame where
  rip : Nat
  rflags : Nat
  rsp : Nat

/-- A task: the registers in its record, and the frames on its kernel stack by address. -/
structure Thread where
  regs : Registers
  stack : Nat → Frame

/-- The state of the machine while a user program runs. The ring starts at the running task;
`interrupted` are the registers that each other task has when it runs again. -/
structure Machine where
  ring : List Nat
  tasks : Nat → Thread
  tssRsp : Nat
  cpu : Context
  interrupted : Nat → Context

namespace Machine

/-- The running task. -/
def running (m : Machine) : Nat := m.ring.headD 0

/-- The CPU enters the kernel: a frame goes to the kernel stack. -/
def interrupt (m : Machine) : Machine :=
  let t := m.tasks m.running
  { m with
    tasks := Function.update m.tasks m.running { t with
      stack := Function.update t.stack (m.tssRsp - 40) ⟨m.cpu.rip, m.cpu.rflags, m.cpu.rsp⟩ }
    interrupted := Function.update m.interrupted m.running m.cpu }

/-- The general registers after the C handler: it may change the caller-saved registers that the
stub does not save. -/
def afterHandler (m : Machine) (scratch : Gpr → Nat) : Gpr → Nat
  | .r8 => scratch .r8
  | .r9 => scratch .r9
  | .r10 => scratch .r10
  | .r11 => scratch .r11
  | r => m.cpu.gpr r

/-- What `runNextTask` stores in the record of the running task. -/
def save (m : Machine) : Machine :=
  let t := m.tasks m.running
  { m with
    tasks := Function.update m.tasks m.running { t with
      regs := { t.regs with
        kernelRsp := m.tssRsp - 40, rax := m.cpu.gpr .rax, rbx := m.cpu.gpr .rbx
        rcx := m.cpu.gpr .rcx, rdx := m.cpu.gpr .rdx, rsi := m.cpu.gpr .rsi
        rdi := m.cpu.gpr .rdi, rbp := m.cpu.gpr .rbp } } }

/-- `&task->regs`. -/
def regsAddr (task : Nat) : Nat := task + 80

/-- The general registers that `_moveToNextProcess` leaves; `now` are those before. -/
def loadRegisters (regs : Registers) (task : Nat) (now : Gpr → Nat) : Gpr → Nat
  | .rax => regs.rax
  | .rbx => regs.rbx
  | .rcx => regs.rcx
  | .rdx => regs.rdx
  | .rsi => regsAddr task
  | .rdi => regs.rdi
  | .rbp => regs.rbp
  | r => now r

/-- The switch to the first task of the ring: the block that sets `add` and `count`, and
`_moveToNextProcess`, which ends in `iretq`. -/
def resume (m : Machine) (now : Gpr → Nat) : Machine :=
  let t := m.tasks m.running
  let regs :=
    if t.regs.count = 0 then { t.regs with add := 40, count := 1 } else { t.regs with add := 0 }
  let frame := t.stack (regs.kernelRsp - regs.add)
  { m with
    tasks := Function.update m.tasks m.running { t with regs := regs }
    tssRsp := if t.regs.count = 0 then regs.kernelRsp else regs.kernelRsp + 40
    cpu := ⟨frame.rip, frame.rsp, frame.rflags, loadRegisters regs m.running now⟩ }

end Machine

/-- What happens while user programs run: the running program gets on to other register contents, the
timer ticks without a switch or with one, or Ctrl-C kills another task. `scratch` are the contents
that the C code leaves in the registers that it may change. -/
inductive Interrupt
  | user (c : Context)
  | tick (scratch : Gpr → Nat)
  | switch (scratch : Gpr → Nat)
  | ctrlC (task : Nat) (scratch : Gpr → Nat)

namespace Machine

/-- The ring after a switch. -/
def rotated (m : Machine) : List Nat := m.ring.tail ++ [m.running]

def step (m : Machine) : Interrupt → Option Machine
  | .user c => some { m with cpu := c }
  | .tick scratch =>
    some { m.interrupt with cpu := { m.cpu with gpr := m.afterHandler scratch } }
  | .switch scratch =>
    some (({ m.interrupt.save with ring := m.rotated } : Machine).resume (m.afterHandler scratch))
  | .ctrlC task scratch =>
    if task ∈ m.ring.tail then
      some (({ m.interrupt with ring := ringWithout m.ring task } : Machine).resume
        (m.afterHandler scratch))
    else none

end Machine

/-! ### Transparency -/

/-- **The step is transparent**: the program that runs after an interrupt has the registers that it
had when it was interrupted. -/
def Transparent (m : Machine) : Interrupt → Machine → Prop
  | .user _, _ => True
  | _, m' => m'.cpu = m.interrupt.interrupted m'.running

/-- The registers that `_moveToNextProcess` does not load. -/
def Gpr.notLoaded : List Gpr := [.r8, .r9, .r10, .r11, .r12, .r13, .r14, .r15]

/-- What the task has in the registers that are not loaded is what the switch leaves there. -/
def Fits (task : Nat) (w : Context) (now : Gpr → Nat) : Prop :=
  w.gpr .rsi = Machine.regsAddr task ∧ ∀ r ∈ Gpr.notLoaded, now r = w.gpr r

/-- The record has the registers of the program, and the kernel stack pointer that it was entered
with. -/
structure UpToDate (regs : Registers) (c : Context) (tssRsp : Nat) : Prop where
  kernelRsp : regs.kernelRsp + 40 = tssRsp
  rax : regs.rax = c.gpr .rax
  rbx : regs.rbx = c.gpr .rbx
  rcx : regs.rcx = c.gpr .rcx
  rdx : regs.rdx = c.gpr .rdx
  rdi : regs.rdi = c.gpr .rdi
  rbp : regs.rbp = c.gpr .rbp

/-- **The step does not depend on what is not saved.** Without a switch the C code leaves `r8` to
`r11` alone; the task that is switched to has nothing in the registers that are not loaded but what
the switch leaves there; Ctrl-C finds the record of the interrupted task up to date. -/
def InterruptSafe (m : Machine) : Interrupt → Prop
  | .user _ => True
  | .tick scratch => ∀ r ∈ [Gpr.r8, .r9, .r10, .r11], scratch r = m.cpu.gpr r
  | .switch scratch =>
    let next := m.rotated.headD 0
    Fits next (m.interrupt.interrupted next) (m.afterHandler scratch)
  | .ctrlC task scratch =>
    let next := (ringWithout m.ring task).headD 0
    UpToDate (m.tasks m.running).regs m.cpu m.tssRsp ∧
      Fits next (m.interrupt.interrupted next) (m.afterHandler scratch)

/-! ### The invariant -/

/-- **A task that is ready** to go on with the registers `w`: its next frame and its record have
them, as far as they are loaded. -/
structure Ready (t : Thread) (w : Context) : Prop where
  room : t.regs.count = 0 → 40 ≤ t.regs.kernelRsp
  frame : t.stack (t.regs.kernelRsp - if t.regs.count = 0 then 40 else 0) = ⟨w.rip, w.rflags, w.rsp⟩
  rax : t.regs.rax = w.gpr .rax
  rbx : t.regs.rbx = w.gpr .rbx
  rcx : t.regs.rcx = w.gpr .rcx
  rdx : t.regs.rdx = w.gpr .rdx
  rdi : t.regs.rdi = w.gpr .rdi
  rbp : t.regs.rbp = w.gpr .rbp

/-- **The invariant**: all tasks but the running one are ready. -/
structure MachineOk (m : Machine) : Prop where
  ne : m.ring ≠ []
  nodup : m.ring.Nodup
  tss : 40 ≤ m.tssRsp
  /-- The running task has been switched to before. -/
  count : (m.tasks m.running).regs.count ≠ 0
  ready : ∀ a ∈ m.ring.tail, Ready (m.tasks a) (m.interrupted a)

variable {m m' : Machine} {t : Thread} {w : Context} {now scratch : Gpr → Nat}

/-- **Loading** what is ready and fits gives all registers. -/
theorem loadRegisters_eq {regs : Registers} {task : Nat} (hfits : Fits task w now)
    (hrax : regs.rax = w.gpr .rax) (hrbx : regs.rbx = w.gpr .rbx) (hrcx : regs.rcx = w.gpr .rcx)
    (hrdx : regs.rdx = w.gpr .rdx) (hrdi : regs.rdi = w.gpr .rdi) (hrbp : regs.rbp = w.gpr .rbp) :
    Machine.loadRegisters regs task now = w.gpr := by
  obtain ⟨hrsi, hrest⟩ := hfits
  funext r
  cases r with
  | rax => exact hrax
  | rbx => exact hrbx
  | rcx => exact hrcx
  | rdx => exact hrdx
  | rsi => exact hrsi.symm
  | rdi => exact hrdi
  | rbp => exact hrbp
  | r8 | r9 | r10 | r11 | r12 | r13 | r14 | r15 => exact hrest _ (by simp [Gpr.notLoaded])

/-- **A switch** to a task that is ready, when all tasks are. -/
theorem resume_spec (hne : m.ring ≠ []) (hnd : m.ring.Nodup)
    (hready : ∀ a ∈ m.ring, Ready (m.tasks a) (m.interrupted a))
    (hfits : Fits m.running (m.interrupted m.running) now) :
    MachineOk (m.resume now) ∧ (m.resume now).cpu = m.interrupted (m.resume now).running := by
  obtain ⟨b, M, hring⟩ := List.exists_cons_of_ne_nil hne
  have hb : m.running = b := by rw [Machine.running, hring]; rfl
  rw [hring] at hready hnd
  have hR := hready b (by simp)
  rw [← hb] at hR
  refine ⟨⟨hne, ?_, ?_, ?_, fun a ha => ?_⟩, ?_⟩
  · rwa [show (m.resume now).ring = b :: M from hring]
  · -- the first switch to a task finds the top of its stack
    simp only [Machine.resume]
    split_ifs with hc
    · exact hR.room hc
    · exact Nat.le_add_left _ _
  · rw [show (m.resume now).running = m.running from rfl]
    simp only [Machine.resume, Function.update_self]
    split_ifs with hc
    · exact Nat.one_ne_zero
    · exact hc
  · rw [show (m.resume now).ring.tail = M by
      rw [show (m.resume now).ring = b :: M from hring, List.tail_cons]] at ha
    have hab : a ≠ m.running := by
      rw [hb]
      rintro rfl
      exact (List.nodup_cons.mp hnd).1 ha
    simp only [Machine.resume, Function.update_of_ne hab]
    exact hready a (List.mem_cons_of_mem b ha)
  · rw [show (m.resume now).running = m.running from rfl]
    have hframe := hR.frame
    simp only [Machine.resume]
    by_cases hc : (m.tasks m.running).regs.count = 0
    · rw [if_pos hc] at hframe
      simp only [if_pos hc, hframe]
      exact congrArg (Context.mk _ _ _)
        (loadRegisters_eq hfits hR.rax hR.rbx hR.rcx hR.rdx hR.rdi hR.rbp)
    · rw [if_neg hc] at hframe
      simp only [if_neg hc, hframe]
      exact congrArg (Context.mk _ _ _)
        (loadRegisters_eq hfits hR.rax hR.rbx hR.rcx hR.rdx hR.rdi hR.rbp)

/-- The frame of the interrupted task. -/
theorem interrupt_self (m : Machine) : m.interrupt.tasks m.running =
    ⟨(m.tasks m.running).regs, Function.update (m.tasks m.running).stack (m.tssRsp - 40)
      ⟨m.cpu.rip, m.cpu.rflags, m.cpu.rsp⟩⟩ :=
  Function.update_self ..

/-- Entering the kernel leaves the other tasks ready. -/
theorem MachineOk.interrupt_ready (h : MachineOk m) {a : Nat} (ha : a ∈ m.ring)
    (hne : a ≠ m.running) : Ready (m.interrupt.tasks a) (m.interrupt.interrupted a) := by
  obtain ⟨b, M, hring⟩ := List.exists_cons_of_ne_nil h.ne
  have hb : m.running = b := by rw [Machine.running, hring]; rfl
  simp only [Machine.interrupt, Function.update_of_ne hne]
  refine h.ready a ?_
  rw [hring] at ha ⊢
  rcases List.mem_cons.mp ha with rfl | ha
  · exact absurd hb.symm hne
  · exact ha

/-- **One step.** -/
theorem MachineOk.step {e : Interrupt} (h : MachineOk m) (hok : InterruptSafe m e)
    (hs : m.step e = some m') : MachineOk m' ∧ Transparent m e m' := by
  obtain ⟨a, M, hring⟩ := List.exists_cons_of_ne_nil h.ne
  have ha : m.running = a := by rw [Machine.running, hring]; rfl
  have hself : (m.interrupt.tasks m.running).regs = (m.tasks m.running).regs := by
    rw [interrupt_self]
  cases e with
  | user c =>
    obtain rfl := Option.some.inj hs
    exact ⟨⟨h.ne, h.nodup, h.tss, h.count, h.ready⟩, trivial⟩
  | tick scratch =>
    obtain rfl := Option.some.inj hs
    refine ⟨⟨h.ne, h.nodup, h.tss, ?_, fun b hb => ?_⟩, ?_⟩
    · exact hself.symm ▸ h.count
    · change b ∈ m.ring.tail at hb
      have hbr : b ≠ m.running := by
        have hnd := h.nodup
        rw [hring] at hnd hb
        rw [ha]
        rintro rfl
        exact (List.nodup_cons.mp hnd).1 hb
      exact h.interrupt_ready (List.mem_of_mem_tail hb) hbr
    · -- the stub restores seven registers, the C code leaves the others alone
      have hgpr : m.afterHandler scratch = m.cpu.gpr := by
        funext r
        cases r with
        | r8 | r9 | r10 | r11 => exact hok _ (by simp)
        | _ => rfl
      change ({ m.cpu with gpr := m.afterHandler scratch } : Context) =
        Function.update m.interrupted m.running m.cpu m.running
      rw [hgpr, Function.update_self]
  | switch scratch =>
    obtain rfl := Option.some.inj hs
    -- the ring is turned, with the same tasks on it
    have hmem : ∀ b ∈ m.rotated, b ∈ m.ring := fun b hb => by
      rw [Machine.rotated, ha, hring, List.tail_cons] at hb
      rw [hring]
      simpa [or_comm] using hb
    refine resume_spec ?_ ?_ (fun b hb => ?_) hok
    · simp [Machine.rotated]
    · have hnd := h.nodup
      rw [hring] at hnd
      change m.rotated.Nodup
      rw [Machine.rotated, ha, hring, List.tail_cons]
      exact List.nodup_append_comm.mp (show ([a] ++ M).Nodup from hnd)
    · by_cases hbr : b = m.running
      · -- the task that was running has just been saved
        subst hbr
        change Ready (m.interrupt.save.tasks m.running) (m.interrupt.interrupted m.running)
        rw [show m.interrupt.interrupted m.running = m.cpu from Function.update_self ..]
        have hcount := h.count
        rw [← hself] at hcount
        have hsaved : m.interrupt.save.tasks m.running = _ := Function.update_self ..
        rw [hsaved]
        refine ⟨fun hc => absurd hc hcount, ?_, rfl, rfl, rfl, rfl, rfl, rfl⟩
        dsimp only
        rw [if_neg (show (m.interrupt.tasks m.interrupt.running).regs.count ≠ 0 from hcount),
          Nat.sub_zero, show m.interrupt.running = m.running from rfl, interrupt_self]
        exact Function.update_self ..
      · have hother : m.interrupt.save.tasks b = m.interrupt.tasks b := Function.update_of_ne hbr ..
        change Ready (m.interrupt.save.tasks b) (m.interrupt.interrupted b)
        rw [hother]
        exact h.interrupt_ready (hmem b hb) hbr
  | ctrlC x scratch =>
    simp only [Machine.step] at hs
    split_ifs at hs with hx
    obtain rfl := Option.some.inj hs
    obtain ⟨hup, hfits⟩ := hok
    have hxL : x ∈ m.ring := List.mem_of_mem_tail hx
    have hxr : x ≠ m.running := by
      have hnd := h.nodup
      rw [hring] at hnd hx
      rw [ha]
      rintro rfl
      exact (List.nodup_cons.mp hnd).1 hx
    have hmem := fun b => mem_ringWithout h.nodup hxL (a := b)
    have hrun : m.running ∈ ringWithout m.ring x :=
      (hmem _).mpr ⟨by rw [ha, hring]; simp, Ne.symm hxr⟩
    refine resume_spec (List.ne_nil_of_mem hrun) ?_ (fun b hb => ?_) hfits
    · obtain ⟨A, B, hAB⟩ := List.append_of_mem hxL
      have hnd := h.nodup
      change (ringWithout m.ring x).Nodup
      rw [hAB] at hnd ⊢
      have hxA : x ∉ A := fun hc => (List.nodup_append.mp hnd).2.2 x hc x (by simp) rfl
      rw [ringWithout_eq hxA]
      exact List.nodup_append_comm.mp (List.nodup_cons.mp (List.nodup_middle.mp hnd)).2
    · by_cases hbr : b = m.running
      · -- nothing has been saved, but the record is up to date
        subst hbr
        change Ready (m.interrupt.tasks m.running) (m.interrupt.interrupted m.running)
        rw [show m.interrupt.interrupted m.running = m.cpu from Function.update_self ..]
        rw [interrupt_self]
        refine ⟨fun hc => absurd hc h.count, ?_, hup.rax, hup.rbx, hup.rcx, hup.rdx, hup.rdi,
          hup.rbp⟩
        dsimp only
        rw [if_neg h.count, Nat.sub_zero, show (m.tasks m.running).regs.kernelRsp = m.tssRsp - 40 by
          rw [← hup.kernelRsp, Nat.add_sub_cancel], Function.update_self]
      · exact h.interrupt_ready ((hmem b).mp hb).1 hbr

/-! ### Two tasks -/

/-- Two tasks, of which the second one was interrupted with `rsi` in that register and zero in the
other ones. -/
def twoTasks (rsi : Nat) : Machine where
  ring := [0x1000, 0x2000]
  tasks _ := ⟨{ (default : Registers) with kernelRsp := 0x5000, count := 1 },
    fun _ => ⟨0x400000, 0x202, 0x7FF8⟩⟩
  tssRsp := 0x5028
  cpu := ⟨0x400000, 0x7FF8, 0x202, fun _ => 0⟩
  interrupted _ := ⟨0x400000, 0x7FF8, 0x202, fun r => if r = .rsi then rsi else 0⟩

theorem twoTasks_ok (rsi : Nat) : MachineOk (twoTasks rsi) where
  ne := by simp [twoTasks]
  nodup := by simp [twoTasks]
  tss := show 40 ≤ 0x5028 by decide
  count := show 1 ≠ 0 by decide
  ready _ _ := ⟨fun _ => show 40 ≤ 0x5000 by decide, rfl, rfl, rfl, rfl, rfl, rfl, rfl⟩

/-! ### The property -/

/-- **Interrupts are transparent in every run** whose steps do not depend on what is not saved: every
state reached is in order, and the next such step is transparent. -/
theorem interrupts_transparent {es : List Interrupt} (h : MachineOk m)
    (hr : Run Machine.step InterruptSafe m es m') :
    MachineOk m' ∧ ∀ e m'', InterruptSafe m' e → m'.step e = some m'' → Transparent m' e m'' := by
  have hok : MachineOk m' := hr.invariant h fun m e m' h hok hs => (h.step hok hs).1
  exact ⟨hok, fun e m'' hsafe hs => (hok.step hsafe hs).2⟩

/-- A switch to a task that has the address of its record in `rsi`. -/
theorem interrupts_transparent_switch : ∃ m', Run Machine.step InterruptSafe (twoTasks 0x2050)
    [.switch fun _ => 0] m' ∧ MachineOk m' := by
  have hsafe : InterruptSafe (twoTasks 0x2050) (.switch fun _ => 0) := by
    refine ⟨rfl, fun r hr => ?_⟩
    simp only [Gpr.notLoaded, List.mem_cons, List.not_mem_nil, or_false] at hr
    rcases hr with rfl | rfl | rfl | rfl | rfl | rfl | rfl | rfl <;> rfl
  obtain ⟨m', hm'⟩ : ∃ m', (twoTasks 0x2050).step (.switch fun _ => 0) = some m' := ⟨_, rfl⟩
  have hrun : Run Machine.step InterruptSafe (twoTasks 0x2050) [.switch fun _ => 0] m' :=
    .cons hsafe hm' (.nil _)
  exact ⟨m', hrun, (interrupts_transparent (twoTasks_ok _) hrun).1⟩

/-- **A switch that is not transparent**: the task goes on with the address of its record in
`rsi`. -/
theorem switch_not_transparent : ∃ m', (twoTasks 5).step (.switch fun _ => 0) = some m' ∧
    ¬ Transparent (twoTasks 5) (.switch fun _ => 0) m' := by
  refine ⟨_, rfl, fun hc => ?_⟩
  have hrsi := congrArg (fun c : Context => c.gpr .rsi) hc
  exact absurd (show 0x2050 = 5 from hrsi) (by decide)

end Sbunix
