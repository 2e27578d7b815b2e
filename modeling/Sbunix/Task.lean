import Sbunix.Lib.Chain
import Sbunix.Elf

/-!
# Tasks

The process operations of `sys/task.c` as functions on the kernel state: `fork`, `exec`, `kill`,
`exit`, `exitpid`, `runNextTask`, and what they call. Tasks are referred to by the address of
their record, and the run ring and the delete queue are linked through `next`.

A function returns `none` where the C code never comes back: a list walk that meets no end, a
page loop that wraps around, a fault in kernel mode that `_hndlr_isr14` answers by spinning.
`_moveToNextProcess` ends every switch; here it loads `cr3`.
-/

namespace Sbunix

open ByteMem

/-- The registers `_timer_intr` saves before the C handler runs. -/
structure SwitchRegs where
  rsp : Nat
  rax : Nat
  rbx : Nat
  rcx : Nat
  rdx : Nat
  rsi : Nat
  rdi : Nat
  rbp : Nat
  deriving DecidableEq, Repr

/-- The registers the system call stub saves. -/
structure UserRegs where
  rbx : Nat
  rcx : Nat
  rdx : Nat
  rsi : Nat
  rdi : Nat
  rflags : Nat
  rip : Nat
  rsp : Nat
  deriving DecidableEq, Repr

/-- The kernel state: memory, the variables of `task.c`, the kernel's own `pml4` and the
registers the MMU and the TSS hold. -/
structure Kernel where
  phys : Phys
  runningThread : Nat
  deleteQueue : Nat
  pidCount : Int
  pageNum : Int
  foregroundPid : Int
  pml4 : Nat
  cr3 : Nat
  tssRsp : Nat

/-- The physical address behind a kernel virtual address. -/
def physOf (v : Nat) : Nat := (v + (2 ^ 64 - kernbase)) % 2 ^ 64

/-- A bound on the steps of a list walk; no list of records is longer than memory. -/
def walkFuel : Nat := maxFrames + 1

/-- A bound on the rounds of a page loop. -/
def pageFuel : Nat := 2 ^ 52 + 1

/-- `while (start < v_end) { …; start += 0x1000; }`: the values of `start`. -/
def pageStarts : Nat → Nat → Nat → Option (List Nat)
  | 0, _, _ => none
  | fuel + 1, start, vEnd =>
    if start < vEnd then (pageStarts fuel ((start + 0x1000) % 2 ^ 64) vEnd).map (start :: ·)
    else some []

/-- The pages of a VMA list, in the order in which the loops over it visit them. -/
def vmaPages : List Vma → Option (List (Vma × Nat))
  | [] => some []
  | vma :: rest => do
    let starts ← pageStarts pageFuel vma.vStart vma.vEnd
    let pages ← vmaPages rest
    return starts.map (vma, ·) ++ pages

namespace Phys

/-- The MMU: the physical address of `v` under `cr3`, if all four entries are present. -/
def translate (s : Phys) (v cr3 : Nat) : Option Nat :=
  match s.pageTable v cr3 with
  | some pt =>
    let e := entry s.mem pt (ptIndex v)
    if e &&& present ≠ 0 then some ((e &&& frame) + v % 0x1000) else none
  | none => none

/-- The link between task records. -/
def next (s : Phys) (a : Nat) : Nat := (s.tasks a).next

def setTask (s : Phys) (a : Nat) (t : Task) : Phys :=
  { s with tasks := Function.update s.tasks a t }

def setNext (s : Phys) (a b : Nat) : Phys := s.setTask a { s.tasks a with next := b }

/-- `_prepareInitialKernelStack`: the frame that `iretq` will take the first time. -/
def prepareInitialKernelStack (s : Phys) (regs : Registers) : Phys :=
  let top := physOf regs.kernelRsp
  ((((s.store64 (top - 8) 0x23).store64 (top - 16) regs.userRsp).store64 (top - 24)
    (regs.rflags ||| 0x200)).store64 (top - 32) 0x2B).store64 (top - 40) regs.rip

/-! ### fork -/

/-- The body of the page loop of `copyParentCr3Entries`: a page of the stack VMA is copied, any
other page is entered read-only. `cr3` is what the MMU uses, `parent` the root of the running
task and `child` that of the new one. -/
def copyParentPage (cr3 parent child : Nat) (s : Phys) (page : Vma × Nat) : Option Phys :=
  let start := page.2
  if page.1.vEnd ≠ stackTop then
    let phyAdr := s.getPhysicalPageAddr start parent
    -- a page that the parent has not touched yet has no entry
    if phyAdr ≠ 2 ^ 64 - 1 ∧ phyAdr ≠ 0 then
      some ((s.mapPageForUser (start &&& frame) (phyAdr &&& frame) child).markPageAsRW
        (start &&& frame) child true)
    else some s
  else
    -- the copy reads the page of the caller at its user address
    let stack := s.kmalloc
    let s := stack.2.mapPageForUser (start &&& frame) stack.1 child
    (s.translate (start &&& frame) cr3).map fun src => s.memcpy src stack.1 4096

def copyParentCr3Entries (s : Phys) (mmap : List Vma) (cr3 parent child : Nat) : Option Phys := do
  let pages ← vmaPages mmap
  pages.foldlM (copyParentPage cr3 parent child) s

/-- The body of the page loop of `makeParentCr3asReadOnly`. -/
def protectPage (cr3 : Nat) (s : Phys) (page : Vma × Nat) : Phys :=
  if page.1.vEnd ≠ stackTop then s.markPageAsRW (page.2 &&& frame) cr3 true else s

def makeParentCr3asReadOnly (s : Phys) (mmap : List Vma) (cr3 : Nat) : Option Phys := do
  let pages ← vmaPages mmap
  return pages.foldl (protectPage cr3) s

/-- `copyVMA`: one node for each node of the list; `isNextFreed` is not copied. -/
def copyVMA (s : Phys) : List Vma → List Vma × Phys
  | [] => ([], s)
  | vma :: rest =>
    let node := s.kmalloc
    let copied := copyVMA node.2 rest
    ({ vma with addr := kernbase + node.1, isNextFreed := 0 } :: copied.1, copied.2)

/-! ### Releasing an address space -/

/-- The other tasks on the ring of `task` that `FreePageEntries` takes to map `phyAddr`: it
looks up the physical address as if it were a virtual one. -/
def countSharers (s : Phys) (task phyAddr : Nat) : Option Nat := do
  -- the whole ring, but for `task` itself
  let others ← Chain.collect s.next (· == task) walkFuel (s.next task)
  return others.countP fun temp =>
    let tempPhy := s.getPhysicalPageAddr phyAddr (s.tasks temp).regs.cr3
    tempPhy ≠ 2 ^ 64 - 1 ∧ tempPhy ≠ 0 ∧ tempPhy &&& frame = phyAddr

/-- The body of the page loop of `FreePageEntries`. -/
def freePageEntry (task : Nat) (s : Phys) (page : Vma × Nat) : Option Phys := do
  let phyAddr := s.getPhysicalPageAddr page.2 (s.tasks task).regs.cr3
  if phyAddr ≠ 2 ^ 64 - 1 ∧ phyAddr ≠ 0 then
    let sharers ← s.countSharers task (phyAddr &&& frame)
    return if sharers = 0 then s.kdealloc (phyAddr &&& frame) else s
  else return s

def freePageEntries (s : Phys) (task : Nat) : Option Phys := do
  let pages ← vmaPages (s.tasks task).mmap
  pages.foldlM (freePageEntry task) s

/-- One level of `FreePageTables`: the table at `table` is read word by word, `inner` runs on
every word with the present bit, and the page the word points to is released. -/
def freeTableEntries (inner : Phys → Nat → Phys) (n : Nat) (s : Phys) (table : Nat) : Phys :=
  (List.range n).foldl (fun s i =>
    let e := entry s.mem table i
    if e &&& present ≠ 0 then (inner s e).pageDeAllocator (e &&& frame) else s) s

/-- `FreePageTables`. The pointers to the lower tables are made from whole entries, flags
included. -/
def freePageTables (s : Phys) (cr3 : Nat) : Phys :=
  freeTableEntries (freeTableEntries (freeTableEntries (fun s _ => s) 512) 512) 511 s cr3

end Phys

namespace Kernel

/-- The record of the running task. -/
def running (k : Kernel) : Task := k.phys.tasks k.runningThread

def modifyTask (k : Kernel) (a : Nat) (f : Task → Task) : Kernel :=
  { k with phys := k.phys.setTask a (f (k.phys.tasks a)) }

/-- The block before every `_moveToNextProcess`: the first switch to a task takes the frame
below its `kernelRsp`, later ones the frame at it. -/
def activate (k : Kernel) (a : Nat) : Kernel :=
  let regs := (k.phys.tasks a).regs
  if regs.count = 0 then
    { k.modifyTask a fun t => { t with regs := { t.regs with add := 40, count := 1 } } with
      tssRsp := regs.kernelRsp }
  else
    { k.modifyTask a fun t => { t with regs := { t.regs with add := 0 } } with
      tssRsp := regs.kernelRsp + 40 }

/-- `_moveToNextProcess`, as far as memory is concerned. -/
def moveToNextProcess (k : Kernel) (a : Nat) : Kernel :=
  { k with cr3 := (k.phys.tasks a).regs.cr3 }

/-! ### fork -/

/-- The fields that `createChildTask` sets before it copies the page tables. -/
def initChild (t : Task) (pid ppid : Int) (u : UserRegs) (cr3 : Nat) : Task :=
  { t with
    pidT := pid
    ppidT := ppid
    regs :=
      { t.regs with
        rax := 0, rbx := u.rbx, rcx := u.rcx, rdx := u.rdx, rsi := u.rsi, rdi := u.rdi,
        rflags := u.rflags, rip := u.rip, cr3 := cr3 } }

/-- The fields that it sets afterwards. -/
def finishChild (t parent : Task) (u : UserRegs) (kernelRsp : Nat) (mmap : List Vma) : Task :=
  { t with
    regs := { t.regs with userRsp := u.rsp, kernelRsp := kernelRsp, count := 0, add := 0 }
    state := 1
    exeName := parent.exeName
    fdPointers := parent.fdPointers
    fdCount := parent.fdCount
    mmap := mmap }

/-- `createChildTask`, on a record that `kmalloc` has cleared. -/
def createChildTask (k : Kernel) (task : Nat) (u : UserRegs) : Option Kernel := do
  let pid := intSucc k.pidCount
  -- the kernel half of the new root is that of the caller
  let new := k.phys.getNewPML4ForUser k.cr3
  let phys := new.2.setTask task (initChild (new.2.tasks task) pid k.running.pidT u new.1)
  let phys ← phys.copyParentCr3Entries (phys.tasks k.runningThread).mmap k.cr3
    (phys.tasks k.runningThread).regs.cr3 new.1
  let stack := phys.kmalloc
  let parent := stack.2.tasks k.runningThread
  let copied := stack.2.copyVMA parent.mmap
  let phys := copied.2.setTask task (finishChild (copied.2.tasks task) parent u
    (kernbase + stack.1 + 0x1000) copied.1)
  return { k with
    phys := phys.prepareInitialKernelStack (phys.tasks task).regs
    pidCount := pid }

/-- `addToQueue`: behind the running task. -/
def addToQueue (k : Kernel) (task : Nat) : Kernel :=
  { k with
    phys := (k.phys.setNext task (k.phys.next k.runningThread)).setNext k.runningThread task }

/-- `fork`, with the pid it returns to the parent. -/
def fork (k : Kernel) (u : UserRegs) : Option (Int × Kernel) := do
  let child := k.phys.kmalloc
  let task := kernbase + child.1
  let k ← { k with phys := child.2 }.createChildTask task u
  let k := k.addToQueue task
  let phys ← k.phys.makeParentCr3asReadOnly k.running.mmap k.running.regs.cr3
  return ((k.phys.tasks task).pidT, { k with phys := phys })

/-! ### Leaving the ring -/

/-- `addToDeleteQueue`. -/
def addToDeleteQueue (k : Kernel) (task : Nat) : Option Kernel :=
  if k.deleteQueue = 0 then some { k with phys := k.phys.setNext task 0, deleteQueue := task }
  else do
    let temp ← Chain.find k.phys.next (fun a => k.phys.next a == 0) walkFuel k.deleteQueue
    return { k with phys := (k.phys.setNext temp task).setNext task 0 }

/-- The search `temp = from; while (temp->next != task) temp = temp->next;`. -/
def findPred (k : Kernel) (start task : Nat) : Option Nat :=
  Chain.find k.phys.next (fun a => k.phys.next a == task) walkFuel start

/-- `kill`; `pid` is the 64-bit argument of the system call. -/
def kill (k : Kernel) (pid : Nat) : Option Kernel :=
  if pid = 1 then some k
  else do
    let pidAt (a : Nat) : Nat := ((k.phys.tasks a).pidT % 2 ^ 64).toNat
    -- the task in front of the one that is killed, or the last one of the ring
    let task ← Chain.find k.phys.next
      (fun a => k.phys.next a == k.runningThread || pidAt (k.phys.next a) == pid) walkFuel
      k.runningThread
    if k.phys.next task = k.runningThread ∨ (k.phys.tasks (k.phys.next task)).pidT = 1 then some k
    else
      let toBeDel := k.phys.next task
      -- its `state` is not changed
      let phys ← k.phys.freePageEntries toBeDel
      let phys := phys.freePageTables (phys.tasks toBeDel).regs.cr3
      let phys := phys.setNext task (phys.next (phys.next task))
      { k with phys := phys }.addToDeleteQueue toBeDel

/-- The common body of `exit` and `exitpid`: the address space of `task` is released, `task` is
taken off the ring and queued, and its successor runs. -/
def terminate (k : Kernel) (task : Nat) : Option Kernel := do
  let k := k.modifyTask task fun t => { t with state := 0 }
  let phys ← k.phys.freePageEntries task
  let k := { k with phys := phys.freePageTables (phys.tasks task).regs.cr3 }
  -- once around the ring
  let temp ← k.findPred task task
  let k := { k with phys := k.phys.setNext temp (k.phys.next (k.phys.next temp)) }
  let temp := k.phys.next temp
  let k ← k.addToDeleteQueue task
  return { k.activate temp with runningThread := temp }.moveToNextProcess temp

/-- `exit`: it comes back, without having done anything, when the running task has pid 1. -/
def exit (k : Kernel) : Option Kernel :=
  if k.running.pidT = 1 then some k else k.terminate k.runningThread

/-- `exitpid`. -/
def exitpid (k : Kernel) (pid : Int) : Option Kernel :=
  if pid = 1 then some k
  else do
    -- the running task comes last
    let temp2 ← Chain.find k.phys.next
      (fun a => (k.phys.tasks a).pidT == pid || a == k.runningThread) walkFuel
      (k.phys.next k.runningThread)
    if (k.phys.tasks temp2).pidT ≠ pid then some k else k.terminate temp2

/-! ### Switching -/

/-- `_changeToAlarmFunction`: the frame of the task returns to the handler, and the interrupted
`rip` is pushed on its user stack. -/
def changeToAlarmFunction (k : Kernel) (fp : Nat) (regs : Registers) : Option Kernel :=
  let top := physOf regs.kernelRsp
  let rip := read64 k.phys.mem top
  let ursp := (read64 k.phys.mem (top + 24) + (2 ^ 64 - 8)) % 2 ^ 64
  let phys := (k.phys.store64 (top + 24) ursp).store64 top fp
  (phys.translate ursp regs.cr3).map fun a => { k with phys := phys.store64 a rip }

/-- `runNextTask`, on the registers `_timer_intr` has saved. -/
def runNextTask (k : Kernel) (r : SwitchRegs) : Option Kernel := do
  let k := k.modifyTask k.runningThread fun t =>
    { t with
      regs :=
        { t.regs with
          kernelRsp := r.rsp, rax := r.rax, rbx := r.rbx, rcx := r.rcx, rdx := r.rdx,
          rsi := r.rsi, rdi := r.rdi, rbp := r.rbp } }
  let next := k.phys.next k.runningThread
  let k := { k with runningThread := next }.activate next
  -- an alarm that is due is taken once
  let k ←
    if (k.phys.tasks next).currAlarmCount > (k.phys.tasks next).expectedAlarmCount then do
      let k ← k.changeToAlarmFunction (k.phys.tasks next).functionPointer (k.phys.tasks next).regs
      return k.modifyTask next fun t =>
        { t with functionPointer := 0, currAlarmCount := 0, expectedAlarmCount := 0 }
    else some k
  return k.moveToNextProcess next

/-! ### exec -/

/-- `stackForUser`: the stack page and its VMA. The page is also entered in the kernel's own
tables. -/
def stackForUser (l : Loader) (cr3 pml4 : Nat) : Loader :=
  let ptr := l.phys.pageAllocator
  let phys := ((ptr.2.mapPageForUser (stackTop - 0x1000) ptr.1 cr3).forceMapPage
    (stackTop - 0x1000) ptr.1 pml4 false).memset ptr.1
  let node := phys.kmalloc
  { phys := node.2
    mmap := l.mmap ++ [{ Vma.zeroed (kernbase + node.1) with
      pageNumber := pageNumWord (intSucc l.pageNum)
      growsDown := 1
      vStart := stackTop - 0x1000
      vEnd := stackTop
      mmsz := 0x1000 }]
    pageNum := intSucc l.pageNum }

/-- `pushSomeArgsToUser`, for a user virtual address. -/
def pushUser (s : Phys) (rsp v cr3 : Nat) : Option Phys :=
  (s.translate (rsp - 8) cr3).map fun a => s.store64 a v

/-- The loop that copies the environment, one page for each string. -/
def pushEnv (cr3 : Nat) : Phys → Nat → List (List UInt8) → Phys × Nat
  | s, envStart, [] => (s, envStart)
  | s, envStart, e :: rest =>
    let page := s.kmalloc
    -- a page of its own for each string, which is cut at 512 bytes
    let s := { page.2 with mem := writeBytes page.2.mem page.1 (e.take 512 ++ [0]) }
    pushEnv cr3 (s.mapPageForUser envStart page.1 cr3) (envStart + 0x1000) rest

/-- The loop over `z` from `0x322000` down to `0x302000`: `rounds` slots of the argument block,
of which those with `z = i` are written. -/
def pushEnvPointers : Nat → Phys → Nat → Nat → Nat → Phys × Nat
  | 0, s, _, _, mainArgs => (s, mainArgs)
  | rounds + 1, s, z, i, mainArgs =>
    -- `i` is the page of a string as long as there is one for this slot
    if z = i then
      pushEnvPointers rounds (s.store64 (mainArgs - 8) i) (z - 0x1000) (i - 0x1000) (mainArgs - 8)
    else pushEnvPointers rounds s (z - 0x1000) i (mainArgs - 8)

/-- The loop over the arguments, last one first: the string goes to offset `j` of the page
`newPage`, its user address into the argument block. -/
def pushArgs (newPage : Nat) : List (List UInt8) → Phys → Nat → Nat → Phys × Nat
  | [], s, _, mainArgs => (s, mainArgs)
  | a :: rest, s, j, mainArgs =>
    let s := s.store64 (mainArgs - 8) (j + 0x301000)
    let text := a.take (511 - j)
    let s := { s with mem := writeBytes s.mem (newPage + j) (text ++ [0]) }
    pushArgs newPage rest s (j + text.length + 1) (mainArgs - 8)

/-- The argument block of `exec`: pages `0x300000` (pointers), `0x301000` (arguments) and from
`0x302000` on (environment). The result has the final value of `mainArgs` as an offset below
the end of the block. -/
def argumentBlock (s : Phys) (cr3 : Nat) (args envp : List (List UInt8)) : Phys × Nat :=
  let block := s.kmalloc
  let s := block.2.mapPageForUser 0x300000 block.1 cr3
  let top := block.1 + 0x1000
  let s := s.store64 (top - 8) 0
  let env := pushEnv cr3 s 0x302000 envp
  let last := env.1.kmalloc
  let s := last.2.mapPageForUser env.2 last.1 cr3
  let pointers := pushEnvPointers 33 s 0x322000 env.2 (top - 8)
  let s := pointers.1.store64 (pointers.2 - 8) 0
  let page := s.kmalloc
  let pushed := pushArgs page.1 args.reverse page.2 0 (pointers.2 - 8)
  let s := pushed.1.mapPageForUser 0x301000 page.1 cr3
  (s.store64 (pushed.2 - 8) args.length, top - (pushed.2 - 8))

/-- `exec` after a failed `loadFile`: the caller leaves the ring and its successor runs, on a
fresh frame. The page released is not that of `task`: `task - get_kernbase()` is arithmetic on a
pointer to a record of 552 bytes. -/
def execFailed (k : Kernel) (task : Nat) : Option Kernel := do
  let k := { k with phys := k.phys.pageDeAllocator ((task + 552 * (2 ^ 64 - kernbase)) % 2 ^ 64) }
  let k := k.modifyTask k.runningThread fun t => { t with state := 0 }
  let temp ← k.findPred k.runningThread k.runningThread
  let k := { k with phys := k.phys.setNext temp (k.phys.next k.runningThread) }
  -- the caller is not put in the delete queue
  let k := { k with runningThread := k.phys.next k.runningThread }
  let k := k.modifyTask k.runningThread fun t => { t with regs := { t.regs with count := 0 } }
  let k := { k with phys := k.phys.prepareInitialKernelStack k.running.regs }
  return (k.activate k.runningThread).moveToNextProcess k.runningThread

/-- `deleteRunningThreadAndJump`. -/
def deleteRunningThreadAndJump (k : Kernel) (task : Nat) : Option Kernel := do
  let k := { k with phys := k.phys.setNext task (k.phys.next k.runningThread) }
  let temp ← k.findPred k.runningThread k.runningThread
  let k := { k with phys := k.phys.setNext temp task, runningThread := task }
  return (k.activate task).moveToNextProcess task

/-- `createNewExecTask`, and what `exec` adds to the record. -/
def createNewExecTask (t old : Task) (entryPoint cr3 kernelRsp fd : Nat) (path : List UInt8)
    (mmap : List Vma) : Task :=
  { t with
    pidT := old.pidT
    ppidT := 0
    exeName := path
    regs :=
      { t.regs with
        rax := 0, rbx := 0, rcx := 0, rdx := 0, rsi := 0, rdi := 0
        rflags := old.regs.rflags, rip := entryPoint, cr3 := cr3
        userRsp := stackTop - 8, rbp := stackTop - 8
        kernelRsp := kernelRsp, count := 0, add := 0 }
    next := 0
    state := 1
    mmap := mmap
    fdPointers := fd :: List.replicate 19 0
    fdCount := 5 }

/-- The VMA of the argument block. -/
def argumentVma (addr : Nat) (pageNum : Int) : Vma :=
  { Vma.zeroed addr with
    pageNumber := pageNumWord (intSucc pageNum)
    vStart := 0x300000
    vEnd := 0x321000
    mmsz := 0x21000 }

/-- `exec` after `loadFile` has returned `entryPoint`: the argument block, its VMA and
`createNewExecTask`. A name that does not fit `exeName` overwrites the record behind it; there
the result is left open. -/
def execLoaded (k : Kernel) (task : Nat) (l : Loader) (entryPoint newCr3 : Nat)
    (path : List UInt8) (args envp : List (List UInt8)) : Option Kernel := do
  let block := argumentBlock l.phys newCr3 args envp
  let phys ← pushUser block.1 stackTop (0x301000 - block.2 - 8) newCr3
  let node := phys.kmalloc
  let stack := node.2.kmalloc
  let fd := stack.2.kmalloc
  let old := fd.2.tasks k.runningThread
  if path.length > 14 then none
  else
    let phys := fd.2.setTask task (createNewExecTask (fd.2.tasks task) old entryPoint newCr3
      (kernbase + stack.1 + 0x1000) (kernbase + fd.1) path
      (argumentVma (kernbase + node.1) l.pageNum :: l.mmap))
    let k := { k with
      phys := phys.prepareInitialKernelStack (phys.tasks task).regs
      pidCount := intSucc k.pidCount
      pageNum := intSucc l.pageNum
      foregroundPid := old.pidT }
    k.deleteRunningThreadAndJump task

/-- The beginning of `exec`: a page for the record, a root, a stack, and the file. The result is
the root, the entry point and the loader. -/
def execLoader (k : Kernel) (found : Option (Nat × Nat)) : Nat × Nat × Loader :=
  let new := k.phys.kmalloc.2.getNewPML4ForUser k.cr3
  (new.1, loadFile (stackForUser ⟨new.2, [], k.pageNum⟩ new.1 k.pml4) found new.1)

/-- `exec`; `found` is the result of the archive search for `path`. -/
def exec (k : Kernel) (path : List UInt8) (found : Option (Nat × Nat))
    (args envp : List (List UInt8)) : Option Kernel :=
  let task := kernbase + k.phys.kmalloc.1
  let loaded := k.execLoader found
  if loaded.2.1 = 0 then
    { k with phys := loaded.2.2.phys, pageNum := loaded.2.2.pageNum }.execFailed task
  else k.execLoaded task loaded.2.2 loaded.2.1 loaded.1 path args envp

end Kernel

end Sbunix
