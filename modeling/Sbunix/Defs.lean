import Sbunix.Lib.Bytes
import Sbunix.PhyMem

/-!
# Kernel data

The records of `sys/task.h` and the memory they live in.

Physical memory is a byte memory. The kernel reaches physical address `a` at the virtual address
`kernbase + a`; page-table pointers are kept here as the physical addresses behind that alias.
`Task` records lie one to a page and are kept beside the bytes, under the kernel virtual address
of their page, so that `NULL` is the address `0`; clearing a page clears the record in it.
The `VMA` nodes of an address space are the list `mmap`, in the order of the `next` pointers.

Fields that only `ps` prints (start and end times, `memMap.count`) and `v_mm`, which nothing
reads, are left out.
-/

namespace Sbunix

/-- `kernbase`, the offset between physical and kernel virtual addresses. -/
def kernbase : Nat := 0xFFFFFFFF80000000

/-- `USER_VIRTUAL_STACK_TOP`. -/
def stackTop : Nat := 0xFFFFFF7F00000000

/-- The C `int` after an increment. -/
def intSucc (n : Int) : Int := (n + 1).bmod (2 ^ 32)

structure Registers where
  rax : Nat
  rbx : Nat
  rcx : Nat
  rdx : Nat
  rsi : Nat
  rdi : Nat
  userRsp : Nat
  rbp : Nat
  rip : Nat
  rflags : Nat
  cr3 : Nat
  kernelRsp : Nat
  count : Nat
  add : Nat
  deriving DecidableEq, Repr

instance : Inhabited Registers := ⟨⟨0, 0, 0, 0, 0, 0, 0, 0, 0, 0, 0, 0, 0, 0⟩⟩

/-- `vma_struct`; `addr` is the address of the node itself. -/
structure Vma where
  addr : Nat
  vStart : Nat
  vEnd : Nat
  mmsz : Nat
  vFlags : Nat
  growsDown : Nat
  vFile : Nat
  vOffset : Nat
  isNextFreed : Nat
  pageNumber : Nat
  deriving DecidableEq, Repr

/-- A node as `kmalloc` returns it: every field is zero. -/
def Vma.zeroed (addr : Nat) : Vma := ⟨addr, 0, 0, 0, 0, 0, 0, 0, 0, 0⟩

structure Task where
  pidT : Int
  ppidT : Int
  currAlarmCount : Nat
  expectedAlarmCount : Nat
  currSleepCount : Nat
  expectedSleepCount : Nat
  exeName : List UInt8
  regs : Registers
  next : Nat
  state : Nat
  mmap : List Vma
  fdPointers : List Nat
  fdCount : Nat
  functionPointer : Nat
  deriving DecidableEq, Repr

/-- A record as `kmalloc` returns it: every field is zero. -/
def Task.zeroed : Task :=
  ⟨0, 0, 0, 0, 0, 0, [], default, 0, 0, [], List.replicate 20 0, 0, 0⟩

/-- Memory as the kernel sees it. `exhausted` is a history variable: some call of
`pageAllocator` has returned `NULL`. -/
structure Phys where
  mem : ByteMem.Mem
  availFrames : Bitmap
  exhausted : Bool
  tasks : Nat → Task

namespace Phys

/-- `pageAllocator` on the whole memory. -/
def pageAllocator (s : Phys) : Nat × Phys :=
  ((Sbunix.pageAllocator s.availFrames).1,
    { s with
      availFrames := (Sbunix.pageAllocator s.availFrames).2
      exhausted := s.exhausted || (getFirstFrame s.availFrames).isNone })

/-- `memset`: clear the 512 words of page `page`, and with them a task record there. -/
def memset (s : Phys) (page : Nat) : Phys :=
  { s with
    mem := ByteMem.clear s.mem page 512
    tasks := Function.update s.tasks (kernbase + page) Task.zeroed }

/-- `kmalloc`, as the physical address of the page. -/
def kmalloc (s : Phys) : Nat × Phys :=
  (s.pageAllocator.1, s.pageAllocator.2.memset s.pageAllocator.1)

def pageDeAllocator (s : Phys) (pageAddr : Nat) : Phys :=
  { s with availFrames := Sbunix.pageDeAllocator s.availFrames pageAddr }

/-- `kdealloc`, given the physical address of the page. -/
def kdealloc (s : Phys) (pageAddr : Nat) : Phys :=
  (s.memset pageAddr).pageDeAllocator pageAddr

/-- `memcpy(src, dest, n)` between physical addresses. -/
def memcpy (s : Phys) (src dest n : Nat) : Phys :=
  { s with mem := ByteMem.copy s.mem src dest n }

/-- Store a 64-bit word. -/
def store64 (s : Phys) (a v : Nat) : Phys :=
  { s with mem := ByteMem.write64 s.mem a v }

end Phys

end Sbunix
