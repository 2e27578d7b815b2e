import Sbunix.ForkPages

/-!
# Demand paging

What becomes of an access to a page that is not present, from the view of the program: the page
is there afterwards and full of zeros (`Kernel.Serves`), or the program ends or hangs.
`_hndlr_isr14` serves a write to the first page of a VMA, and nothing else
(`fault_served_iff`).
-/

namespace Sbunix

open ByteMem Chain

variable {image : Nat} {Γ Γ' : Nat → Use} {L D G : List Nat} {k k' : Kernel} {v : Nat} {w : Bool}

/-- The access ends with a page of zeros at `v`, and with the program still running. -/
def Kernel.Serves (k : Kernel) (v : Nat) (write : Bool) : Prop :=
  ∃ k', k.access v write = some k' ∧ k'.runningThread = k.runningThread ∧
    ∃ f, f % 4096 = 0 ∧ k'.phys.leaf v k'.running.regs.cr3 = some (f + 7) ∧
      ∀ x < 4096, k'.phys.mem (f + x) = 0

/-- The dispatch for a page that is not present. -/
theorem faultCase_absent (habs : k.phys.translate v k.cr3 = none) :
    k.faultCase v (k.errorCode v w) =
      if w = true ∧ k.isPartofCurrentVma (v &&& frame) = true ∧
        (v &&& frame = Kernel.stackBorder → k.running.pidT = 1) then .demandZero else .exit := by
  have he : k.errorCode v w = (if w then 2 else 0) + 4 := by
    simp [Kernel.errorCode, habs]
  rw [he]
  unfold Kernel.faultCase
  cases w with
  | false => simp
  | true =>
    simp only [if_true]
    by_cases hb : v &&& frame = Kernel.stackBorder <;> by_cases hp : k.running.pidT = 1 <;>
      cases hi : k.isPartofCurrentVma (v &&& frame) <;> simp [hb, hp]

/-- `exit` does not serve. -/
theorem Inv.exit_not_serves (h : Inv image Γ L D G k) (habs : k.phys.translate v k.cr3 = none)
    (hs : k.exit = some k') (hrun : k'.runningThread = k.runningThread) {f : Nat}
    (hf : f % 4096 = 0) : k'.phys.leaf v k'.running.regs.cr3 ≠ some (f + 7) := by
  intro hl
  unfold Kernel.exit at hs
  split at hs
  · obtain rfl := Option.some.inj hs
    rw [← h.cr3] at hl
    rw [translate_of_leaf hf hl (Or.inl rfl)] at habs
    cases habs
  · next hpid =>
    -- the task that runs now is another one
    obtain ⟨pages, hp⟩ := Kernel.vmaPages_of_terminate hs
    obtain ⟨k'', hk'', ht⟩ := h.terminated h.running_mem hpid hp
    obtain rfl : k' = k'' := Option.some.inj (hs.symm.trans hk'')
    have hmem := (mem_ringWithout (List.nodup_append.mp h.nodup).1 h.running_mem).mp ht.ring.mem
    exact hmem.2 hrun

/-- A write to the first page of a VMA is served. -/
theorem Inv.serves (h : Inv image Γ L D G k) (hv : pml4Index v < 511)
    (habs : k.phys.translate v k.cr3 = none) (hx : (k.demandZero v).phys.exhausted = false)
    (hcase : k.faultCase v (k.errorCode v w) = .demandZero) : k.Serves v w := by
  have hperm : ¬ k.phys.Permits v k.cr3 w := fun hp => hp.1 habs
  obtain ⟨Γ', g, hN, hz, hI⟩ := h.demandZero hv hx
  refine ⟨k.demandZero v, ?_, by simp only [Kernel.demandZero], g, ?_, ?_, hz⟩
  · rw [Kernel.access, if_neg hperm, Kernel.hndlrIsr14_eq, hcase]
  · exact (data_aligned hN.builds.typed hN.new.1).1
  · have hrun : (k.demandZero v).running.regs.cr3 = k.running.regs.cr3 := by
      rw [← hI.cr3, ← h.cr3]
      simp only [Kernel.demandZero]
    rw [hrun]
    exact hN.leaf

/-- **Memory is usable exactly by writing to the first page of a VMA.** For the address `v` of a
VMA of the running task whose page is not present, with frames available: the fault is served iff
the access is a write, some VMA starts on the page of `v`, and the page is not the one the handler
takes for the stack border (unless the task has pid 1). -/
theorem fault_served_iff (h : Inv image Γ L D G k) (write : Bool) :
    ∀ vma ∈ k.running.mmap, ∀ v, vma.vStart ≤ v → v < vma.vEnd → pml4Index v < 511 →
      k.phys.translate v k.cr3 = none → (k.demandZero v).phys.exhausted = false →
      (k.Serves v write ↔ write = true ∧ k.isPartofCurrentVma (v &&& frame) = true ∧
        (v &&& frame = Kernel.stackBorder → k.running.pidT = 1)) := by
  intro vma _ v _ _ hv habs hx
  have hcase := faultCase_absent (w := write) habs
  constructor
  · rintro ⟨k', hs, hrun, f, hf, hl, -⟩
    by_contra hc
    rw [if_neg hc] at hcase
    rw [Kernel.access, if_neg fun hp => hp.1 habs, Kernel.hndlrIsr14_eq, hcase] at hs
    exact h.exit_not_serves habs hs hrun hf hl
  · intro hc
    rw [if_pos hc] at hcase
    exact h.serves hv habs hx hcase

/-- The shell has frames for a page on demand. -/
theorem shell_demandZero_alive {mmap : List Vma} (v : Nat) :
    ((shell mmap).demandZero v).phys.exhausted = false := by
  obtain ⟨hx, hn⟩ := pageAllocator_live (s := (shell mmap).phys) (k := 47) rfl shell_room
  simp only [Kernel.demandZero, Phys.memset_exhausted]
  exact (mapWith_alive_of_le (k := 44) hx hn).1

theorem shell_absent {mmap : List Vma} (v : Nat) :
    (shell mmap).phys.translate v (shell mmap).cr3 = none := by
  rw [translate_eq, show (shell mmap).cr3 = 0x2000 from rfl, shell_leaf]
  rfl

/-- The shell writes to its one VMA. -/
theorem fault_served_shell : (shell [pageVma 0x400000]).Serves 0x400abc true := by
  have hm : UserPages [pageVma 0x400000] := userPages_pageVma (by decide)
  have hrun : (shell [pageVma 0x400000]).running = shellRecord [pageVma 0x400000] := shell_record
  refine (fault_served_iff (shell_inv hm) true (pageVma 0x400000) ?_ 0x400abc (by decide)
    (by decide) (by decide) (shell_absent _) (shell_demandZero_alive _)).mpr ⟨rfl, ?_, ?_⟩
  · rw [hrun]
    exact List.mem_singleton_self _
  · rw [Kernel.isPartofCurrentVma, hrun]
    decide
  · decide

/-- **Reading from it is not served.** -/
theorem read_fault_not_served :
    pageVma 0x400000 ∈ (shell [pageVma 0x400000]).running.mmap ∧
      ¬ (shell [pageVma 0x400000]).Serves 0x400abc false := by
  have hrun : (shell [pageVma 0x400000]).running = shellRecord [pageVma 0x400000] := shell_record
  refine ⟨by rw [hrun]; exact List.mem_singleton_self _, ?_⟩
  rintro ⟨k', hs, hk', f, hf, hl, -⟩
  have habs : (shell [pageVma 0x400000]).phys.translate 0x400abc (shell [pageVma 0x400000]).cr3 =
      none := shell_absent _
  rw [Kernel.access, if_neg fun hp => hp.1 habs, Kernel.hndlrIsr14_eq, faultCase_absent habs,
    if_neg (by simp)] at hs
  exact (shell_inv (userPages_pageVma (by decide))).exit_not_serves habs hs hk' hf hl

end Sbunix
