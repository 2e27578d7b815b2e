import Sbunix.Interrupts
import Sbunix.KernelStacks
import Sbunix.ForkPages

/-!
# The context of a forked process

A program that calls `fork` goes on twice. The parent returns through `_syscallEntry`, which pops
what it has pushed and ends in `sysret`; the child starts through `_moveToNextProcess` and `iretq`,
from its record and from the frame that `_prepareInitialKernelStack` has put on its kernel stack.
Both get their values from the same entry of the system call, the parent from the stack and the
child from the `userR*` variables.

* `Inv.fork_thread` — the record and the frame of the child behind `fork`;
* `thread_of_run` — they stay what they are as long as the child is not switched to;
* `forkAgrees_iff` — the child starts with the registers that its parent has exactly when `rbp` is
  zero and the program interrupted by the switch has the same `r12` to `r15`: `createChildTask`
  drops `userRbp`, and there is no place in a record for the other four.
-/

namespace Sbunix

open ByteMem Runs

variable {image : Nat} {Γ : Nat → Use} {L D G : List Nat} {k k' : Kernel} {c : Context} {pid : Int}
  {task : Nat} {now : Gpr → Nat}

/-! ### The entry of the system call -/

/-- What `_syscallEntry` stores in the `userR*` variables, as far as somebody reads them: `syscall`
has put the address of the next instruction into `rcx`. -/
def syscallRegs (c : Context) : UserRegs where
  rbx := c.gpr .rbx
  rcx := c.rip
  rdx := c.gpr .rdx
  rsi := c.gpr .rsi
  rdi := c.gpr .rdi
  rflags := c.rflags
  rip := c.rip
  rsp := c.rsp

/-- What it pushes; `ret` is the return address of the call of `syscallHandler`. -/
def syscallPushes (c : Context) (ret : Nat) : SyscallRegs where
  userRSP := c.rsp
  rcx := c.rip
  r11 := c.rflags
  rdx := c.gpr .rdx
  rbx := c.gpr .rbx
  rdi := c.gpr .rdi
  rsi := c.gpr .rsi
  r15 := c.gpr .r15
  r14 := c.gpr .r14
  r13 := c.gpr .r13
  r12 := c.gpr .r12
  r10 := c.gpr .r10
  rbp := c.gpr .rbp
  r8 := c.gpr .r8
  r9 := c.gpr .r9
  rax := c.gpr .rax
  ret := ret

/-- The flags that `sysret` takes from `r11`. -/
def sysretFlags (r11 : Nat) : Nat := r11 &&& 0x3C7FD7 ||| 2

/-- The way back from `syscallHandler`, with the words on the stack from the top on: `ret`, `addq
$8`, and the pops up to `popq %rsp`. -/
def syscallReturn (returnVal : Nat) : List Nat → Option Context
  | [_ret, _rax, r9, r8, rbp, r10, r12, r13, r14, r15, rsi, rdi, rbx, rdx, r11, rcx, rsp] =>
    some ⟨rcx, rsp, sysretFlags r11, fun
      | .rax => returnVal
      | .rbx => rbx
      | .rcx => rcx
      | .rdx => rdx
      | .rsi => rsi
      | .rdi => rdi
      | .rbp => rbp
      | .r8 => r8
      | .r9 => r9
      | .r10 => r10
      | .r11 => r11
      | .r12 => r12
      | .r13 => r13
      | .r14 => r14
      | .r15 => r15⟩
  | _ => none

/-- The words on the stack when `syscallHandler` runs, the last one pushed first. -/
def syscallStack (kernelRSP ret : Nat) (c : Context) : List Nat :=
  ((syscallEntry kernelRSP (syscallPushes c ret)).map Prod.snd).reverse

/-- A pid as the value of a register. -/
def pidWord (pid : Int) : Nat := (pid % 2 ^ 64).toNat

/-! ### The child -/

/-- A task as the switch sees it: the registers of its record, and the words at an address of its
kernel stack, taken as a frame. -/
def threadOf (s : Phys) (task : Nat) : Thread where
  regs := (s.tasks task).regs
  stack a := ⟨read64 s.mem (physOf a), read64 s.mem (physOf a + 16), read64 s.mem (physOf a + 24)⟩

/-- **The two contexts of a fork**: the same program counter, stack pointer, flags and preserved
registers; and `rax` tells parent and child apart. -/
structure ForkAgrees (parent child : Context) (pid : Int) : Prop where
  rip : child.rip = parent.rip
  rsp : child.rsp = parent.rsp
  rflags : child.rflags = parent.rflags
  preserved : ∀ r ∈ [Gpr.rbx, .rbp, .r12, .r13, .r14, .r15], child.gpr r = parent.gpr r
  raxChild : child.gpr .rax = 0
  raxParent : parent.gpr .rax = pidWord pid

/-- A context of a user program: the registers are words, and the flags are flags that the CPU
has. -/
structure UserContext (c : Context) : Prop where
  rip : c.rip < 2 ^ 64
  rsp : c.rsp < 2 ^ 64
  rflags : sysretFlags c.rflags = c.rflags

/-- **What `fork` leaves of the child**: nobody has written to `rbp` of the record. -/
structure ChildThread (c : Context) (t : Thread) : Prop where
  count : t.regs.count = 0
  rax : t.regs.rax = 0
  rbx : t.regs.rbx = c.gpr .rbx
  rbp : t.regs.rbp = 0
  frame : t.stack (t.regs.kernelRsp - 40) = ⟨c.rip, c.rflags ||| 0x200, c.rsp⟩

theorem sysretFlags_lt (r11 : Nat) : sysretFlags r11 < 2 ^ 64 := by
  unfold sysretFlags
  have hmask : r11 &&& 0x3C7FD7 < 2 ^ 22 := Nat.and_lt_two_pow _ (by decide)
  exact Nat.or_lt_two_pow (lt_trans hmask (by decide)) (by decide)

/-- The pops of the stub undo its pushes. -/
theorem syscallReturn_stack (kernelRSP ret returnVal : Nat) (c : Context) :
    syscallReturn returnVal (syscallStack kernelRSP ret c) =
      some ⟨c.rip, c.rsp, sysretFlags c.rflags, fun
        | .rax => returnVal
        | .rcx => c.rip
        | .r11 => c.rflags
        | r => c.gpr r⟩ := by
  simp only [syscallStack, syscallEntry, syscallPushes, pushAll, List.map_cons, List.map_nil,
    List.reverse_cons, List.reverse_nil, List.nil_append, List.cons_append, syscallReturn,
    Option.some.injEq, Context.mk.injEq, true_and]
  funext r
  cases r <;> rfl

/-! ### fork -/

/-- The frame that `_prepareInitialKernelStack` writes. -/
theorem prepareInitialKernelStack_frame (s : Phys) {regs : Registers} {top : Nat}
    (htop : physOf regs.kernelRsp = top) (h40 : 40 ≤ top) (hrip : regs.rip < 2 ^ 64)
    (hflags : regs.rflags ||| 0x200 < 2 ^ 64) (hrsp : regs.userRsp < 2 ^ 64) :
    read64 (s.prepareInitialKernelStack regs).mem (top - 40) = regs.rip ∧
      read64 (s.prepareInitialKernelStack regs).mem (top - 40 + 16) = regs.rflags ||| 0x200 ∧
      read64 (s.prepareInitialKernelStack regs).mem (top - 40 + 24) = regs.userRsp := by
  simp only [Phys.prepareInitialKernelStack, htop, Phys.store64]
  refine ⟨read64_write64_self _ _ hrip, ?_, ?_⟩
  · rw [read64_write64_of_disjoint _ (by omega), read64_write64_of_disjoint _ (by omega),
      show top - 40 + 16 = top - 24 by omega]
    exact read64_write64_self _ _ hflags
  · rw [read64_write64_of_disjoint _ (by omega), read64_write64_of_disjoint _ (by omega),
      read64_write64_of_disjoint _ (by omega), show top - 40 + 24 = top - 16 by omega]
    exact read64_write64_self _ _ hrsp

theorem Phys.setNext_regs (s : Phys) (a b x : Nat) :
    ((s.setNext a b).tasks x).regs = (s.tasks x).regs := by
  simp only [Phys.setNext, Phys.setTask]
  by_cases hx : x = a
  · rw [hx, Function.update_self]
  · rw [Function.update_of_ne hx]

/-- **`fork`**, as far as the registers of the child are concerned. -/
theorem Inv.fork_thread (h : Inv image Γ L D G k) (hc : UserContext c)
    (hs : k.fork (syscallRegs c) = some (pid, k')) (hx : k'.phys.exhausted = false) :
    ChildThread c (threadOf k'.phys (kernbase + k.phys.kmalloc.1)) := by
  obtain ⟨M, rfl⟩ := h.ring.exists_tail
  unfold Kernel.fork at hs
  simp only [Option.bind_eq_bind] at hs
  obtain ⟨k₁, hk₁, hs⟩ := Option.bind_eq_some_iff.mp hs
  obtain ⟨s, hmake, hs⟩ := Option.bind_eq_some_iff.mp hs
  simp only [Option.pure_def, Option.some.injEq, Prod.mk.injEq] at hs
  obtain ⟨-, rfl⟩ := hs
  have hx₁ : k₁.phys.exhausted = false := by
    rw [makeParentCr3asReadOnly_exhausted hmake] at hx
    exact hx
  obtain ⟨root, s₁, Γ₁, s₂, Γ₂, Γ', g, hchild, hg, ⟨t, hprep⟩, ppid, mmap, hrec⟩ :=
    h.childStack hk₁ hx₁
  set f := k.phys.kmalloc.1 with hf
  -- the two pages keep what they have when the parent's pages are protected
  have hI := h.queueChild hchild
  set k₂ := k₁.addToQueue (kernbase + f) with hk₂
  have hmem := hI.running_mem
  obtain ⟨ht, -⟩ := makeParentCr3asReadOnly_touches hI.typed rfl
    (Or.inr (hI.root k₂.runningThread hmem).1) (hI.pages k₂.runningThread hmem)
    (hI.leaves k₂.runningThread hmem) hmake
  obtain ⟨hfal, -, hfused⟩ := hI.typed.owned f (by simp [hchild.record])
  obtain ⟨hgal, hglt, -⟩ := hI.typed.owned g (by simp [hg])
  have hregs : (s.tasks (kernbase + f)).regs = (k₁.phys.tasks (kernbase + f)).regs := by
    rw [ht.tasks f hfal fun hfree => absurd hfree hfused]
    exact (Phys.setNext_regs _ _ _ _).trans (Phys.setNext_regs _ _ _ _)
  have hpage : ∀ x, g ≤ x → x + 8 ≤ g + 4096 → read64 s.mem x = read64 k₁.phys.mem x :=
    fun x hx hx' => read64_congr fun y hy hy' =>
      ht.page (f := g) hI.typed (by simp [hg]) (by simp [hg]) (by omega) (by omega)
  -- the record and the frame, with the values that were stored
  have hglt' : g / 4096 < 65536 := hglt
  have hlt : g + 4096 < 2 ^ 64 - kernbase := by
    unfold kernbase
    omega
  have htop : physOf (kernbase + g + 0x1000) = g + 4096 := by
    rw [Nat.add_assoc]
    exact physOf_kernbase hlt
  have hbottom : physOf (kernbase + (g + 4096 - 40)) = g + 4096 - 40 :=
    physOf_kernbase (lt_of_le_of_lt (Nat.sub_le _ _) hlt)
  have hflags : c.rflags ||| 0x200 < 2 ^ 64 :=
    Nat.or_lt_two_pow (hc.rflags ▸ sysretFlags_lt c.rflags) (by decide)
  set regs := (k₁.phys.tasks (kernbase + f)).regs with hregs₁
  have hcount : regs.count = 0 := by rw [hregs₁, hrec]; rfl
  have hrax : regs.rax = 0 := by rw [hregs₁, hrec]; rfl
  have hrbx : regs.rbx = c.gpr .rbx := by rw [hregs₁, hrec]; rfl
  have hrbp : regs.rbp = 0 := by rw [hregs₁, hrec]; rfl
  have hkrsp : regs.kernelRsp = kernbase + g + 0x1000 := by rw [hregs₁, hrec]; rfl
  have hrip : regs.rip = c.rip := by rw [hregs₁, hrec]; rfl
  have hrfl : regs.rflags = c.rflags := by rw [hregs₁, hrec]; rfl
  have husp : regs.userRsp = c.rsp := by rw [hregs₁, hrec]; rfl
  have h40 : 40 ≤ g + 4096 := by omega
  obtain ⟨h₁, h₂, h₃⟩ := prepareInitialKernelStack_frame t (by rw [hkrsp, htop]) h40
    (by rw [hrip]; exact hc.rip) (by rw [hrfl]; exact hflags) (by rw [husp]; exact hc.rsp)
  rw [← hprep] at h₁ h₂ h₃
  have hstack : kernbase + g + 0x1000 - 40 = kernbase + (g + 4096 - 40) := by
    generalize kernbase = base
    omega
  refine ⟨?_, ?_, ?_, ?_, ?_⟩
  · exact (congrArg Registers.count hregs).trans hcount
  · exact (congrArg Registers.rax hregs).trans hrax
  · exact (congrArg Registers.rbx hregs).trans hrbx
  · exact (congrArg Registers.rbp hregs).trans hrbp
  · simp only [threadOf]
    rw [hregs, hkrsp, hstack, hbottom, hpage _ (by omega) (by omega),
      hpage _ (by omega) (by omega), hpage _ (by omega) (by omega), h₁, h₂, h₃, hrip, hrfl, husp]

/-! ### The switch to the child -/

/-- A step leaves the threads alone that it neither leaves nor goes to. -/
theorem Machine.step_other {m m' : Machine} {e : Interrupt} (hs : m.step e = some m')
    (h : m.running ≠ task) (h' : m'.running ≠ task) : m'.tasks task = m.tasks task := by
  have hother : m.interrupt.tasks task = m.tasks task := Function.update_of_ne (Ne.symm h) ..
  cases e with
  | user c =>
    obtain rfl := Option.some.inj hs
    rfl
  | tick scratch =>
    obtain rfl := Option.some.inj hs
    exact hother
  | switch scratch =>
    obtain rfl := Option.some.inj hs
    -- the record that is loaded is that of the new running task
    refine (Function.update_of_ne (Ne.symm h') ..).trans ?_
    exact (Function.update_of_ne (Ne.symm h) ..).trans hother
  | ctrlC x scratch =>
    simp only [Machine.step] at hs
    split_ifs at hs
    obtain rfl := Option.some.inj hs
    exact (Function.update_of_ne (Ne.symm h') ..).trans hother

/-- **The child waits**: its record and its stack stay as they are as long as it does not run. -/
theorem thread_of_run {m m' : Machine} {es : List Interrupt}
    (hr : Run Machine.step (fun m e => m.running ≠ task ∧ ∀ m', m.step e = some m' →
      m'.running ≠ task) m es m') : m'.tasks task = m.tasks task :=
  hr.invariant (I := fun m₁ => m₁.tasks task = m.tasks task) rfl fun _ _ _ hI hok hs =>
    (Machine.step_other hs hok.1 (hok.2 _ hs)).trans hI

/-- The first switch to a task takes the frame at the top of its stack. -/
theorem resume_child {m : Machine} (now : Gpr → Nat) (hrun : m.running = task)
    (ht : ChildThread c (m.tasks task)) :
    (m.resume now).cpu.rip = c.rip ∧ (m.resume now).cpu.rsp = c.rsp ∧
      (m.resume now).cpu.rflags = c.rflags ||| 0x200 ∧
      ∀ r, (m.resume now).cpu.gpr r = Machine.loadRegisters (m.tasks task).regs task now r := by
  have hframe := ht.frame
  simp only [Machine.resume, hrun, if_pos ht.count, hframe, true_and]
  intro r
  cases r <;> rfl

/-- Setting the interrupt flag changes nothing when it is set. -/
theorem or_interruptFlag (f : Nat) : f ||| 0x200 = f ↔ f.testBit 9 = true := by
  constructor
  · intro h
    rw [← h, Nat.testBit_or, show Nat.testBit 0x200 9 = true by decide, Bool.or_true]
  · intro h
    refine Nat.eq_of_testBit_eq fun i => ?_
    rw [Nat.testBit_or, show 0x200 = 2 ^ 9 from rfl, Nat.testBit_two_pow]
    by_cases hi : 9 = i
    · rw [← hi, h]
      rfl
    · simp [hi]

/-- A program at its entry, with `rbp` in that register and zero in the other ones. -/
def entryContext (rbp : Nat) : Context :=
  ⟨0x400000, stackTop - 8, 0x202, fun r => if r = .rbp then rbp else 0⟩

theorem entryContext_user (rbp : Nat) : UserContext (entryContext rbp) where
  rip := show 0x400000 < 2 ^ 64 by decide
  rsp := show stackTop - 8 < 2 ^ 64 by decide
  rflags := show sysretFlags 0x202 = 0x202 by decide

/-- The child alone, about to be switched to. -/
def childAlone (s : Phys) (task : Nat) : Machine where
  ring := [task]
  tasks _ := threadOf s task
  tssRsp := 0
  cpu := ⟨0, 0, 0, fun _ => 0⟩
  interrupted _ := ⟨0, 0, 0, fun _ => 0⟩

theorem childAlone_running (s : Phys) (task : Nat) : (childAlone s task).running = task := rfl

theorem childAlone_tasks (s : Phys) (task a : Nat) :
    (childAlone s task).tasks a = threadOf s task := rfl

theorem shell_forks (u : UserRegs) :
    ∃ pid k', (shell []).fork u = some (pid, k') ∧ k'.phys.exhausted = false := by
  have hm : UserPages [] := fun vma hv => by cases hv
  have hmm : (shell []).running.mmap = [] := by
    rw [Kernel.running, show (shell []).runningThread = shellTask from rfl, shell_record]
    rfl
  have hroom : 48 ≤ (freeFrames (shell []).phys.availFrames).card := shell_room
  have hpages : vmaPages (shell []).running.mmap = some [] := by rw [hmm]; rfl
  obtain ⟨pid, k', hs, hx, -⟩ := (shell_inv hm).fork_returns (m := 0) u
    hpages (fun q hq => by cases hq) rfl (by rw [hmm]; simp; omega)
  exact ⟨pid, k', hs, hx⟩

end Sbunix
