import Sbunix.Shell

/-!
# Kernel stacks

A task enters the kernel on two stacks: an interrupt takes the one that `TSS.rsp0` points to, the
top of a page of the task; a system call takes the one that `initSyscalls` has put into
`kernelRSP`. `StacksInPage` says of both that they stay in their pages.

`initSyscalls` stores the address that `kmalloc` returns, which is the lowest of the page, and a
push goes below the stack pointer: every push of `_syscallEntry` misses the page
(`syscallEntry_below`), in every state (`stacks_leave_page`).
-/

namespace Sbunix

/-! ### The entry of a system call -/

/-- The registers that `_syscallEntry` saves, and the return address of its `call`. -/
structure SyscallRegs where
  userRSP : Nat
  rcx : Nat
  r11 : Nat
  rdx : Nat
  rbx : Nat
  rdi : Nat
  rsi : Nat
  r15 : Nat
  r14 : Nat
  r13 : Nat
  r12 : Nat
  r10 : Nat
  rbp : Nat
  r8 : Nat
  r9 : Nat
  rax : Nat
  ret : Nat

/-- A sequence of `pushq`: where each word goes. -/
def pushAll : Nat → List Nat → List (Nat × Nat)
  | _, [] => []
  | rsp, w :: words =>
    ((rsp + (2 ^ 64 - 8)) % 2 ^ 64, w) :: pushAll ((rsp + (2 ^ 64 - 8)) % 2 ^ 64) words

/-- The pushes of `_syscallEntry`, up to the `call` of `syscallHandler`. -/
def syscallEntry (kernelRSP : Nat) (r : SyscallRegs) : List (Nat × Nat) :=
  pushAll kernelRSP [r.userRSP, r.rcx, r.r11, r.rdx, r.rbx, r.rdi, r.rsi, r.r15, r.r14, r.r13,
    r.r12, r.r10, r.rbp, r.r8, r.r9, r.rax, r.ret]

/-- `initSyscalls`, as far as `kernelRSP` is concerned. -/
def initSyscalls (s : Phys) : Nat × Phys := (kernbase + s.kmalloc.1, s.kmalloc.2)

/-- The words go down from the stack pointer. -/
theorem mem_pushAll {rsp : Nat} {words : List Nat} (hrsp : rsp < 2 ^ 64)
    (hlen : 8 * words.length ≤ rsp) {p : Nat × Nat} (hp : p ∈ pushAll rsp words) :
    p.1 + 8 ≤ rsp ∧ rsp ≤ p.1 + 8 * words.length := by
  induction words generalizing rsp with
  | nil => cases hp
  | cons w words ih =>
    rw [List.length_cons] at hlen ⊢
    have hnext : (rsp + (2 ^ 64 - 8)) % 2 ^ 64 = rsp - 8 := by omega
    rw [pushAll, hnext, List.mem_cons] at hp
    rcases hp with rfl | hp
    · dsimp only
      omega
    · have := ih (by omega) (by omega) hp
      omega

/-- Where the page of the system calls lies. -/
theorem initSyscalls_fst (s : Phys) :
    (initSyscalls s).1 % 4096 = 0 ∧ kernbase ≤ (initSyscalls s).1 ∧ (initSyscalls s).1 < 2 ^ 64 := by
  have hpage : s.kmalloc.1 % 4096 = 0 ∧ s.kmalloc.1 < 2 ^ 31 := by
    rw [Phys.kmalloc, Phys.pageAllocator]
    rcases pageAllocator_cases s.availFrames with ⟨-, heq⟩ | ⟨n, hn, -, -, heq⟩
    · dsimp only
      rw [heq]
      exact ⟨rfl, show 0 < 2 ^ 31 by decide⟩
    · dsimp only
      rw [heq]
      unfold maxFrames maxBitmapRows at hn
      dsimp only
      omega
  have hbase : kernbase % 4096 = 0 := by decide
  have hadd : kernbase + 2 ^ 31 = 2 ^ 64 := by decide
  rw [initSyscalls]
  dsimp only
  omega

/-- **Every push of a system call misses the page.** -/
theorem syscallEntry_below (s : Phys) (r : SyscallRegs) {p : Nat × Nat}
    (hp : p ∈ syscallEntry (initSyscalls s).1 r) : p.1 < (initSyscalls s).1 ∧
      (initSyscalls s).1 ≤ p.1 + 4096 := by
  obtain ⟨-, hlo, hhi⟩ := initSyscalls_fst s
  have hbase : 4096 ≤ kernbase := by decide
  rw [syscallEntry] at hp
  have := mem_pushAll hhi (by simp only [List.length_cons, List.length_nil]; omega) hp
  simp only [List.length_cons, List.length_nil] at this
  omega

/-! ### Stacks and their pages -/

/-- Where the `iret` frame of a task that does not run will be taken from: `kernelRsp - add`, with
the value of `add` that the switch sets. -/
def frameAt (r : Registers) : Nat := if r.count = 0 then r.kernelRsp - 40 else r.kernelRsp

/-- **Kernel stacks neither creep nor leave their pages.** `page a` is the page that `kmalloc` gave
the task `a` for its kernel stack, and `kernelRSP` what `initSyscalls` has stored. -/
structure StacksInPage (k : Kernel) (page : Nat → Nat) (kernelRSP : Nat) : Prop where
  /-- The running task enters the kernel at the top of its page. -/
  tss : k.tssRsp = page k.runningThread + 0x1000
  /-- Each other one has its frame there. -/
  frames : ∀ a, k.OnRing a → a ≠ k.runningThread →
    frameAt (k.phys.tasks a).regs + 40 = page a + 0x1000
  /-- System calls stay in the page they were given. -/
  pushes : ∀ r, ∀ p ∈ syscallEntry kernelRSP r, p.1 / 4096 = kernelRSP / 4096

/-- **The stack of the system calls leaves its page** in every state, whatever the page. -/
theorem stacks_leave_page (s : Phys) (k : Kernel) (page : Nat → Nat) :
    ¬ StacksInPage k page (initSyscalls s).1 := by
  intro h
  obtain ⟨hmod, -, -⟩ := initSyscalls_fst s
  have hfirst : ∀ r : SyscallRegs, ∃ p, p ∈ syscallEntry (initSyscalls s).1 r :=
    fun r => ⟨_, List.mem_cons_self⟩
  obtain ⟨p, hp⟩ := hfirst ⟨0, 0, 0, 0, 0, 0, 0, 0, 0, 0, 0, 0, 0, 0, 0, 0, 0⟩
  have hin := h.pushes _ p hp
  have hbelow := syscallEntry_below s _ hp
  omega

/-- **A system call in the first state**: the word of the user stack pointer is pushed to the page
below. -/
theorem shell_stacks_leave_page :
    ¬ StacksInPage (shell []) (fun _ => kernbase + 0x5000) (initSyscalls (shell []).phys).1 := by
  intro h
  have hin := h.pushes ⟨0, 0, 0, 0, 0, 0, 0, 0, 0, 0, 0, 0, 0, 0, 0, 0, 0⟩ _ List.mem_cons_self
  obtain ⟨hmod, hlo, hhi⟩ := initSyscalls_fst (shell []).phys
  have hbase : 4096 ≤ kernbase := by decide
  dsimp only at hin
  omega

end Sbunix
