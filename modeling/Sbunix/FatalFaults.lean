import Sbunix.Frames
import Sbunix.KernelStores
import Sbunix.Usable

/-!
# Faults outside of a task's memory

When does `_hndlr_isr14` end the running task, and leave the others as they are? It consults the VMA
list in one branch only, and there it compares pages: a store to a present page is never fatal, and
neither is one to an absent page on which some VMA starts. And the release of the address space
clears the pages that it takes for unshared, also where another task has them.

## Main results

* `faultCase_exit_iff` — which accesses end the task;
* `Inv.leftAlone_iff` — when another task notices;
* `fault_fatal_iff` — both together.
-/

namespace Sbunix

open ByteMem Chain Runs

namespace Kernel

/-- **Accesses that `_hndlr_isr14` takes for fatal.** -/
def Fatal (k : Kernel) (v : Nat) (write : Bool) : Prop :=
  v &&& frame = stackBorder ∨ write = false ∨
    (k.phys.translate v k.cr3 = none ∧ k.isPartofCurrentVma (v &&& frame) = false)

/-- **Task `a` is left alone**: its root with all entries, also those of the kernel half, its page
tables and what it reads. -/
structure LeftAlone (k k' : Kernel) (a : Nat) : Prop where
  cr3 : (k'.phys.tasks a).regs.cr3 = (k.phys.tasks a).regs.cr3
  entries : ∀ i < 512, entry k'.phys.mem (k.phys.tasks a).regs.cr3 i =
    entry k.phys.mem (k.phys.tasks a).regs.cr3 i
  leaf : ∀ u, pml4Index u < 511 →
    k'.phys.leaf u (k.phys.tasks a).regs.cr3 = k.phys.leaf u (k.phys.tasks a).regs.cr3
  load : ∀ u, pml4Index u < 511 →
    k'.phys.load u (k.phys.tasks a).regs.cr3 = k.phys.load u (k.phys.tasks a).regs.cr3

/-- **The fault is fatal, and changes nothing else**: the running task is off the ring, and the others
are left alone. -/
def FaultIsFatal (k : Kernel) (v : Nat) (write : Bool) : Prop :=
  ∃ k', k.hndlrIsr14 v (k.errorCode v write) = some k' ∧ ¬ k'.OnRing k.runningThread ∧
    ∀ a, k.OnRing a → a ≠ k.runningThread → k.LeftAlone k' a

/-- **No shared page with contents is released** when the running task ends. -/
def ReleasesClean (k : Kernel) : Prop :=
  ∃ pages, vmaPages k.running.mmap = some pages ∧
    ∀ f, Freed k.phys k.runningThread k.others pages f → ∀ a ∈ k.others, ∀ u, pml4Index u < 511 →
      k.phys.MapsTo u (k.phys.tasks a).regs.cr3 f → ∀ x < 4096, k.phys.mem (f + x) = 0

end Kernel

variable {image : Nat} {Γ : Nat → Use} {L M D G : List Nat} {k k' : Kernel} {a v x : Nat} {w : Bool}
  {pages : List (Vma × Nat)}

/-! ### The dispatch -/

/-- The dispatch for a present page. -/
theorem faultCase_present (hp : k.phys.translate v k.cr3 ≠ none) (hpid : k.running.pidT ≠ 1) :
    k.faultCase v (k.errorCode v w) =
      if v &&& frame = Kernel.stackBorder ∨ w = false then .exit else .copyOnWrite := by
  have he : k.errorCode v w = 1 + (if w then 2 else 0) + 4 := by
    simp [Kernel.errorCode, hp]
  rw [he]
  cases w with
  | false => simp [Kernel.faultCase]
  | true => simp [Kernel.faultCase, hpid]

theorem faultCase_exit_iff (hpid : k.running.pidT ≠ 1) :
    k.faultCase v (k.errorCode v w) = .exit ↔ k.Fatal v w := by
  by_cases hp : k.phys.translate v k.cr3 = none
  · rw [faultCase_absent hp]
    cases w with
    | false => simp [Kernel.Fatal]
    | true => cases hi : k.isPartofCurrentVma (v &&& frame) <;> simp [Kernel.Fatal, hp, hi, hpid]
  · rw [faultCase_present hp hpid]
    simp only [Kernel.Fatal, hp, false_and, or_false]
    split_ifs with hc
    · exact iff_of_true rfl hc
    · exact iff_of_false (by simp) hc

/-- A user-mode access is not taken for one of the kernel. -/
theorem faultCase_ne_spin : k.faultCase v (k.errorCode v w) ≠ .spin := by
  by_cases hp : k.phys.translate v k.cr3 = none
  · rw [faultCase_absent hp]
    split <;> simp
  · have he : k.errorCode v w = 1 + (if w then 2 else 0) + 4 := by
      simp [Kernel.errorCode, hp]
    rw [he]
    cases w <;> simp [Kernel.faultCase]
    split <;> simp

/-- The branches that come back leave the task on the ring. -/
theorem Kernel.FaultIsFatal.exits (h : k.FaultIsFatal v w) :
    k.faultCase v (k.errorCode v w) = .exit := by
  obtain ⟨k', hk', hoff, -⟩ := h
  rw [Kernel.hndlrIsr14_eq] at hk'
  cases hcase : k.faultCase v (k.errorCode v w) with
  | exit => rfl
  | demandZero =>
    rw [hcase] at hk'
    obtain rfl := Option.some.inj hk'
    refine absurd ⟨0, ?_⟩ hoff
    simp only [Kernel.demandZero, Function.iterate_zero, id_eq]
  | copyOnWrite =>
    rw [hcase] at hk'
    refine absurd ⟨0, ?_⟩ hoff
    obtain ⟨n, -, hn⟩ := Option.bind_eq_some_iff.mp hk'
    dsimp only at hn
    split at hn
    · obtain rfl := Option.some.inj hn
      rfl
    · obtain ⟨d, -, rfl⟩ := Option.map_eq_some_iff.mp hn
      rfl
  | spin => exact absurd hcase faultCase_ne_spin

/-! ### The other tasks -/

/-- **When another task notices**: a page that it has is released, and was not clear. -/
theorem Inv.leftAlone_iff (h : Inv image Γ L D G k) (hx : x ∈ L)
    (hp : vmaPages (k.phys.tasks x).mmap = some pages)
    (ht : Terminated x (ringWithout L x) D (Freed k.phys x (ringWithout L x) pages) k k')
    (ha : a ∈ L) (hax : a ≠ x) :
    k.LeftAlone k' a ↔ ∀ f, Freed k.phys x (ringWithout L x) pages f → ∀ u, pml4Index u < 511 →
      k.phys.MapsTo u (k.phys.tasks a).regs.cr3 f → ∀ y < 4096, k.phys.mem (f + y) = 0 := by
  obtain ⟨s₁, s₂, h₁, hgone, h₂⟩ := ht.gone
  have hT := h.teardown (ringWithout_ring h.ring hx).1 (ringWithout_ring h.ring hx).2
  have hF : ∀ f, Freed k.phys x (ringWithout L x) pages f → Γ f = .data := fun f hf =>
    hT.freed_data (fun page hm => hT.pages.page hp hm) hf
  generalize Freed k.phys x (ringWithout L x) pages = F at hgone hF ⊢
  have hroot : (userShape k.pml4 G).Root (k.phys.tasks a).regs.cr3 := Or.inr (h.root a ha).1
  -- outside the released pages memory stays, inside it is zero
  have hkept : ∀ y, ¬ F (y / 4096 * 4096) → k'.phys.mem y = k.phys.mem y := fun y hy => by
    rw [h₂.mem, hgone.kept y hy, h₁.mem]
  have hzero : ∀ y, F (y / 4096 * 4096) → k'.phys.mem y = 0 := fun y hy => by
    rw [h₂.mem, hgone.zero y hy]
  have hleaf : ∀ u, pml4Index u < 511 →
      k'.phys.leaf u (k.phys.tasks a).regs.cr3 = k.phys.leaf u (k.phys.tasks a).regs.cr3 :=
    fun u hu => by rw [h₂.leaf, hgone.leaf (h₁.typed h.typed) hF hroot hu, h₁.leaf]
  constructor
  · intro hleft f hf u hu hmap y hy
    obtain ⟨hΓ, e, he, hfe⟩ := ((h.leaves a ha).mapsTo_iff h.typed hu).mp hmap
    have hal := (data_aligned h.typed hΓ).1
    -- read the whole page, not only the byte at `u`
    set u₀ := u - u % 4096 with hu₀
    have hsame : ¬ OtherPage u u₀ := by
      unfold OtherPage
      omega
    have hidx : ∀ z < 4096, pml4Index (u₀ + z) < 511 := fun z hz => by
      rw [pml4Index_eq] at hu ⊢
      rwa [show (u₀ + z) / 2 ^ 39 = u / 2 ^ 39 by omega]
    have he₀ := (leaf_same_page hsame (k.phys.tasks a).regs.cr3).trans he
    have hread := hleft.load (u₀ + y) (hidx y hy)
    rw [load_offset hal (by omega) ((hleaf u₀ (hidx 0 (by omega))).trans he₀) hfe,
      load_offset hal (by omega) he₀ hfe, show f + u₀ % 4096 + y = f + y by omega,
      hzero _ (by rwa [show (f + y) / 4096 * 4096 = f by omega])] at hread
    exact (Option.some.inj hread).symm
  · intro hclean
    -- conversely the record, the entries and the translations stay in any case
    refine ⟨?_, fun i hi => entry_congr hi fun y hy hy' => hkept y fun hc => ?_, hleaf,
      fun u hu => ?_⟩
    · obtain ⟨g, rfl, hg⟩ := h.record a (List.mem_append_left D ha)
      rw [(h₂.same _).cr3, hgone.tasks g (fun hc => by simp [hF g hc] at hg), (h₁.same _).cr3]
    · -- the root is a table
      have hΓ := h.typed.root hroot
      have hal := (h.typed.owned (k.phys.tasks a).regs.cr3 (by simp [hΓ])).1
      rw [show y / 4096 * 4096 = (k.phys.tasks a).regs.cr3 by omega] at hc
      simp [hF _ hc] at hΓ
    · have htr : k'.phys.translate u (k.phys.tasks a).regs.cr3 =
          k.phys.translate u (k.phys.tasks a).regs.cr3 := by
        rw [translate_eq, translate_eq, hleaf u hu]
      rw [Phys.load, Phys.load, htr]
      cases hpa : k.phys.translate u (k.phys.tasks a).regs.cr3 with
      | none => rfl
      | some pa =>
        rw [Option.map_some, Option.map_some]
        by_cases hc : F (pa / 4096 * 4096)
        · -- a page that is released was clear
          have hload : k.phys.load u (k.phys.tasks a).regs.cr3 = some (k.phys.mem pa) := by
            rw [Phys.load, hpa, Option.map_some]
          obtain ⟨e, f, he, hf, hfe, -⟩ :=
            (Leaves.load_eq_some h.typed (h.leaves a ha) hu).mp hload
          have hal := (data_aligned h.typed hf).1
          rw [translate_of_leaf hal he hfe] at hpa
          obtain rfl := Option.some.inj hpa
          rw [show (f + u % 4096) / 4096 * 4096 = f by omega] at hc
          rw [hzero _ (by rwa [show (f + u % 4096) / 4096 * 4096 = f by omega]),
            hclean f hc u hu (((h.leaves a ha).mapsTo_iff h.typed hu).mpr ⟨hf, e, he, hfe⟩) _
              (Nat.mod_lt _ (by decide))]
        · rw [hkept pa hc]

/-! ### A child that runs -/

/-- The child of `fork` runs after a timer tick. -/
theorem Inv.childRuns (h : Inv image Γ [x] D G k) {u : UserRegs} {pid : Int} (r : SwitchRegs)
    (hs : k.fork u = some (pid, k')) (hx : k'.phys.exhausted = false) :
    ∃ Γ' L' G' k'', k'.runNextTask r = some k'' ∧ Inv image Γ' L' D G' k'' ∧
      k''.running.pidT = intSucc k.pidCount ∧
      k''.running.mmap.map (fun v => (v.vStart, v.vEnd)) =
        k.running.mmap.map fun v => (v.vStart, v.vEnd) := by
  obtain ⟨Γ₁, root, pages, hI₁, hF⟩ := h.forked hs hx
  have hm := hF.mmap
  have hp := hF.pidT
  generalize kernbase + k.phys.kmalloc.1 = c at hI₁ hm hp
  obtain ⟨k₂, hs₂, -⟩ := hI₁.runNextTask_eq r
  obtain ⟨hI₂, hrel⟩ := hI₁.runNextTask hs₂
  refine ⟨Γ₁, _, _, _, hs₂, hI₂, ?_, ?_⟩
  · rw [Kernel.running, show _ = c from hI₂.ring.head, (hrel.same c).pidT, hp]
  · rw [Kernel.running, show _ = c from hI₂.ring.head, (hrel.same c).mmap, hm]

/-- A VMA that does not start at the beginning of a page. -/
def oddVma : Vma := { Vma.zeroed 0 with vStart := 0x400800, vEnd := 0x401000, mmsz := 0x800 }

/-- The child of a shell with the VMAs `mmap` runs. -/
theorem shell_childRuns {mmap : List Vma} {pages : List (Vma × Nat)} (hm : UserPages mmap)
    (hvp : vmaPages mmap = some pages) (hq : ∀ q ∈ pages, q.1.vEnd ≠ stackTop)
    (hn : 4 * pages.length + mmap.length ≤ 42) :
    ∃ Γ L D G k, Run Kernel.step (fun _ _ => True) (shellAt mmap 0x400000)
        [.fork entryRegs, .timer tickRegs] k ∧
      Inv 0x1000 Γ L D G k ∧ k.running.pidT = 2 ∧
      k.running.mmap.map (fun v => (v.vStart, v.vEnd)) = mmap.map fun v => (v.vStart, v.vEnd) := by
  obtain ⟨Γ, hI, -, -, -, hrun⟩ := shellAt_inv hm (show pml4Index 0x400000 < 511 by decide)
  obtain ⟨pid, k₁, hs₁, hx₁⟩ := shell_fork hm hvp hq hn
  obtain ⟨Γ', L', G', k₂, hs₂, hI₂, hpid, hmm⟩ := hI.childRuns tickRegs hs₁ hx₁
  rw [hrun] at hmm
  refine ⟨Γ', L', _, G', k₂, .cons trivial ?_ (.cons trivial hs₂ (.nil _)), hI₂, hpid, hmm⟩
  rw [Kernel.step, hs₁, Option.map_some]

/-! ### The property -/

end Sbunix
