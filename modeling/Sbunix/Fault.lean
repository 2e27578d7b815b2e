import Sbunix.Task

/-!
# Page faults

`_hndlr_isr14` of `sys/idt.c`, and the accesses of user programs that lead to it. `exit` comes
back only when the running task has pid 1; the handler goes on behind it in that case.
-/

namespace Sbunix

open ByteMem

namespace Phys

/-- The bits that all four entries on the way to `v` have: what the MMU allows. -/
def rights (s : Phys) (v cr3 : Nat) : Nat :=
  let pmlEntry := entry s.mem cr3 (pml4Index v)
  let pdptEntry := entry s.mem (pmlEntry &&& frame) (pdptIndex v)
  let pdtEntry := entry s.mem (pdptEntry &&& frame) (pdtIndex v)
  let ptEntry := entry s.mem (pdtEntry &&& frame) (ptIndex v)
  pmlEntry &&& pdptEntry &&& pdtEntry &&& ptEntry

/-- A user-mode access that the MMU lets through. -/
def Permits (s : Phys) (v cr3 : Nat) (write : Bool) : Prop :=
  s.translate v cr3 ≠ none ∧ s.rights v cr3 &&& user ≠ 0 ∧
    (write = true → s.rights v cr3 &&& writeable ≠ 0)

instance (s : Phys) (v cr3 : Nat) (write : Bool) : Decidable (s.Permits v cr3 write) :=
  inferInstanceAs (Decidable (_ ∧ _ ∧ _))

end Phys

namespace Kernel

/-- `isPartofCurrentVma`: some VMA starts on the page. -/
def isPartofCurrentVma (k : Kernel) (addr : Nat) : Bool :=
  k.running.mmap.any fun vma => vma.vStart &&& frame == addr

/-- The branch that allocates a page on demand. -/
def demandZero (k : Kernel) (pagefaultAt : Nat) : Kernel :=
  let ptr := k.phys.pageAllocator
  { k with
    phys := (ptr.2.mapPageForUser (pagefaultAt &&& frame) ptr.1 k.running.regs.cr3).memset ptr.1 }

/-- The other tasks that map the page of `pagefaultAt` to `phyAddr`. -/
def pageSharers (k : Kernel) (pagefaultAt phyAddr : Nat) : Option Nat := do
  let others ← Chain.collect k.phys.next (· == k.runningThread) walkFuel
    (k.phys.next k.runningThread)
  return others.countP fun temp =>
    let tempPhy := k.phys.getPhysicalPageAddr (pagefaultAt &&& frame) (k.phys.tasks temp).regs.cr3
    tempPhy ≠ 2 ^ 64 - 1 ∧ tempPhy ≠ 0 ∧ tempPhy &&& frame = phyAddr

/-- The branch for a user-mode store to a present page: the last user of a page makes it
writable, any other gets a copy. -/
def copyOnWrite (k : Kernel) (pagefaultAt : Nat) : Option Kernel := do
  let phyAddr := k.phys.getPhysicalPageAddr (pagefaultAt &&& frame) k.running.regs.cr3 &&& frame
  let sharers ← k.pageSharers pagefaultAt phyAddr
  if sharers = 0 then
    return { k with
      phys := k.phys.markPageAsRW (pagefaultAt &&& frame) k.running.regs.cr3 false }
  else
    let newPage := k.phys.kmalloc
    let phys := newPage.2.mapPageForUser (pagefaultAt &&& frame) newPage.1 k.running.regs.cr3
    (phys.translate (pagefaultAt &&& frame) k.cr3).map fun dest =>
      { k with phys := phys.memcpy phyAddr dest 4096 }

/-- The page `_hndlr_isr14` calls the stack border. -/
def stackBorder : Nat := 0xFFFFFF7EFFFF5000

/-- `_hndlr_isr14`. -/
def hndlrIsr14 (k : Kernel) (pagefaultAt errorCode : Nat) : Option Kernel :=
  if pagefaultAt &&& frame = stackBorder ∧ k.running.pidT ≠ 1 then k.exit
  else
    let p := errorCode % 2
    let rw := errorCode / 2 % 2
    let us := errorCode / 4 % 2
    if errorCode / 8 ≠ 0 ∧ k.running.pidT ≠ 1 then k.exit
    else if rw = 1 ∧ p = 0 then
      if k.isPartofCurrentVma (pagefaultAt &&& frame) then some (k.demandZero pagefaultAt)
      else if us = 1 then k.exit
      else none
    else if us = 1 ∧ rw = 1 ∧ p = 1 then k.copyOnWrite pagefaultAt
    else if us = 1 ∧ rw = 0 ∧ p = 0 then k.exit
    else if us = 0 ∧ rw = 0 ∧ p = 0 then none
    else k.exit

/-- The error code the MMU pushes for a user-mode access to `v`. -/
def errorCode (k : Kernel) (v : Nat) (write : Bool) : Nat :=
  (if k.phys.translate v k.cr3 = none then 0 else 1) + (if write then 2 else 0) + 4

/-- A user-mode access to `v`: it is let through, or it faults. -/
def access (k : Kernel) (v : Nat) (write : Bool) : Option Kernel :=
  if k.phys.Permits v k.cr3 write then some k else k.hndlrIsr14 v (k.errorCode v write)

end Kernel

end Sbunix
