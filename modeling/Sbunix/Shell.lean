import Sbunix.Steps

/-!
# The shell alone

The state in which the system hands over to its first process: a single task of pid 1 on the run
ring, an empty delete queue, and an empty address space on a cleared memory (`shell`). It meets the
invariant whatever its VMAs are (`shell_inv`), and so does the state in which a page has been
entered for it (`Inv.enter`).
-/

namespace Sbunix

open ByteMem Chain

variable {image : Nat} {Γ Γ' : Nat → Use} {L D G : List Nat} {k k' : Kernel} {v f : Nat}
  {mmap : List Vma}

/-- The record of the shell lies in page `0x3000`. -/
def shellTask : Nat := kernbase + 0x3000

/-- The record of the shell, which has run before: page `0x5000` is its kernel stack. -/
def shellRecord (mmap : List Vma) : Task :=
  { Task.zeroed with
    pidT := 1
    regs := { (default : Registers) with
      cr3 := 0x2000, kernelRsp := kernbase + 0x6000, count := 1, add := 40 }
    next := shellTask
    state := 1
    mmap := mmap }

/-- Frames 16 to 63 are free. -/
def shellFrames : Bitmap := fun row => if row = 0 then 0xFFFFFFFFFFFF0000#64 else 0#64

/-- The shell alone. -/
def shell (mmap : List Vma) : Kernel where
  phys := ⟨fun _ => 0, shellFrames, false,
    Function.update (fun _ => Task.zeroed) shellTask (shellRecord mmap)⟩
  runningThread := shellTask
  deleteQueue := 0
  pidCount := 1
  pageNum := 0
  foregroundPid := 1
  pml4 := 0x1000
  cr3 := 0x2000
  tssRsp := kernbase + 0x6000

/-- What the pages of the shell are used for; page `0x4000` is for its data. -/
def shellTyping (f : Nat) : Use :=
  if f = 0 ∨ f = 0x3000 ∨ f = 0x5000 then .kernel
  else if f = 0x1000 ∨ f = 0x2000 then .table f []
  else if f = 0x4000 then .data
  else .unowned

theorem shellTyping_table {f r : Nat} {p : List Nat} (h : shellTyping f = .table r p) :
    (f = 0x1000 ∨ f = 0x2000) ∧ r = f ∧ p = [] := by
  unfold shellTyping at h
  split_ifs at h with h₁ h₂
  · obtain ⟨rfl, rfl⟩ := Use.table.inj h
    exact ⟨h₂, rfl, rfl⟩

theorem shell_typed : Typed (userShape 0x1000 [0x2000]) (shell mmap).phys shellTyping where
  owned f hf := by
    have hf' : f = 0 ∨ f = 0x3000 ∨ f = 0x5000 ∨ f = 0x1000 ∨ f = 0x2000 ∨ f = 0x4000 := by
      unfold shellTyping at hf
      split_ifs at hf <;> tauto
    rcases hf' with rfl | rfl | rfl | rfl | rfl | rfl <;>
      exact ⟨by decide, by decide, show ¬ IsFree shellFrames _ by decide⟩
  rooted f r p h := by
    obtain ⟨hf, rfl, rfl⟩ := shellTyping_table h
    rcases hf with rfl | rfl
    · exact Or.inl rfl
    · exact Or.inr (by simp)
  placed := by
    have hz : ∀ a i, entry (shell mmap).phys.mem a i = 0 := fun a i =>
      read64_eq_zero fun _ _ _ => rfl
    refine ⟨fun r hr => ?_, fun n r p i m _ _ hm => ?_⟩
    · rw [place_eq_some]
      rcases hr.1 with rfl | hr
      · rfl
      · obtain rfl := List.mem_singleton.mp hr
        rfl
    · rw [child_eq_none.mpr (by rw [hz])] at hm
      cases hm
  slots f r p i _ _ := by
    rw [show entry (shell mmap).phys.mem f i = 0 from read64_eq_zero fun _ _ _ => rfl]
    exact ⟨by decide, Or.inr (Or.inl rfl)⟩

theorem shell_leaf (v : Nat) : (shell mmap).phys.leaf v 0x2000 = none :=
  leaf_emptyRoot (read64_eq_zero fun _ _ _ => rfl)

theorem shell_record : (shell mmap).phys.tasks shellTask = shellRecord mmap := by
  simp only [shell, Function.update_self]

/-- **The shell alone meets the invariant.** -/
theorem shell_inv (hm : UserPages mmap) :
    Inv 0x1000 shellTyping [shellTask] [] [0x2000] (shell mmap) := by
  have hmem : ∀ a ∈ [shellTask], a = shellTask := fun a ha => List.mem_singleton.mp ha
  refine ⟨⟨fun a ha => ha, fun a ha => ?_, shell_typed, fun a ha => ?_, fun a ha b hb _ => ?_,
    fun a ha v e _ he => ?_, fun a ha => ?_, fun a ha => ?_, fun f hal hf => ?_⟩,
    ⟨by simp, by simp, rfl, ?_⟩, rfl, by simp, ?_, shellTask, by simp, ?_⟩
  · obtain rfl := hmem a ha
    exact ⟨0x3000, rfl, rfl⟩
  · obtain rfl := hmem a ha
    rw [shell_record]
    exact ⟨by simp [shellRecord], show (0x2000 : Nat) ≠ 0x1000 by decide⟩
  · exact (hmem a ha).trans (hmem b hb).symm
  · obtain rfl := hmem a ha
    rw [shell_record] at he
    rw [show (shellRecord mmap).regs.cr3 = 0x2000 from rfl, shell_leaf] at he
    cases he
  · obtain rfl := hmem a ha
    rw [shell_record]
    exact hm
  · obtain rfl := hmem a ha
    rw [shell_record]
    exact Nat.le_refl 0
  · obtain rfl : f = 0 := by omega
    rfl
  · rw [Phys.next, shell_record]
    rfl
  · rw [Kernel.running, show (shell mmap).runningThread = shellTask from rfl, shell_record]
    rfl
  · rw [shell_record]
    rfl

/-- There is room for 48 pages. -/
theorem shell_room : 48 ≤ (freeFrames (shell mmap).phys.availFrames).card := by
  have hsub : (Finset.range 64).filter (16 ≤ ·) ⊆ freeFrames shellFrames := by
    intro n hn
    have hall : ∀ n ∈ (Finset.range 64).filter (16 ≤ ·), n < maxFrames ∧ IsFree shellFrames n := by
      decide
    exact mem_freeFrames.mpr (hall n hn)
  exact Finset.card_le_card hsub

/-- **Entering a data page** for the running task. -/
theorem Inv.enter (h : Inv image Γ L D G k) (hv : pml4Index v < 511) (hf : Γ f = .data)
    (hx : (k.phys.mapPageForUser v f k.running.regs.cr3).exhausted = false) :
    ∃ Γ', Inv image Γ' L D G
        { k with phys := k.phys.mapPageForUser v f k.running.regs.cr3 } ∧
      Γ' f = .data ∧
      (k.phys.mapPageForUser v f k.running.regs.cr3).leaf v k.running.regs.cr3 = some (f + 7) ∧
      (∀ w, pml4Index w < 511 → OtherPage v w → LeafKept (k.phys.leaf w k.running.regs.cr3)
        ((k.phys.mapPageForUser v f k.running.regs.cr3).leaf w k.running.regs.cr3)) ∧
      ∀ a ∈ L, (k.phys.mapPageForUser v f k.running.regs.cr3).tasks a = k.phys.tasks a := by
  have hmem := h.running_mem
  obtain ⟨Γ', ht, hself, hother⟩ := mapPageForUser_spec h.typed
    (Or.inr (h.root _ hmem).1 : (userShape k.pml4 G).Root k.running.regs.cr3)
    (userShape_accepts k.pml4 G _) hv hf hx
  have hB := (Builds.refl (W := (· = k.running.regs.cr3)) h.typed).touches ht rfl
  refine ⟨Γ', h.touchRunning hB ?_, ht.data f hf, hself, hother, fun a ha => ?_⟩
  rotate_left
  · obtain ⟨g, rfl, hg⟩ := h.record a (List.mem_append_left D ha)
    exact hB.tasks g (by simp [hg])
  exact Leaves.set (S := userShape k.pml4 G) (h.leaves _ hmem) ht.data
    (fun e he => Or.inr ⟨f, ht.data f hf, Or.inl (Option.some.inj (he.symm.trans hself))⟩) hother

/-- The shell with page `0x4000` at `v`. -/
def shellAt (mmap : List Vma) (v : Nat) : Kernel :=
  { shell mmap with phys := (shell mmap).phys.mapPageForUser v 0x4000 0x2000 }

/-- … and 45 pages left. -/
theorem shellAt_alive : (shellAt mmap v).phys.exhausted = false ∧
    45 ≤ (freeFrames (shellAt mmap v).phys.availFrames).card :=
  mapWith_alive_of_le (k := 45) rfl shell_room

theorem shellAt_inv (hm : UserPages mmap) (hv : pml4Index v < 511) :
    ∃ Γ, Inv 0x1000 Γ [shellTask] [] [0x2000] (shellAt mmap v) ∧ Γ 0x4000 = .data ∧
      (shellAt mmap v).phys.leaf v 0x2000 = some 0x4007 ∧
      (∀ w e, pml4Index w < 511 → OtherPage v w → (shellAt mmap v).phys.leaf w 0x2000 = some e →
        e = 0) ∧
      (shellAt mmap v).running = shellRecord mmap := by
  have hcr3 : (shell mmap).running.regs.cr3 = 0x2000 := by
    rw [Kernel.running, show (shell mmap).runningThread = shellTask from rfl, shell_record]
    rfl
  have := (shell_inv hm).enter (v := v) (f := 0x4000) hv rfl
    (by rw [hcr3]; exact shellAt_alive.1)
  rw [hcr3] at this
  obtain ⟨Γ', hI, hf, hl, hother, htasks⟩ := this
  refine ⟨Γ', hI, hf, hl, fun w e hw hvw he => ?_, ?_⟩
  · rcases hother w hw hvw with hk | ⟨-, hk⟩
    · rw [shell_leaf] at hk
      rw [shellAt, hk] at he
      cases he
    · exact Option.some.inj (he.symm.trans hk)
  · exact (htasks shellTask (by simp)).trans shell_record

/-- A VMA of the single page `v`. -/
def pageVma (v : Nat) : Vma := { Vma.zeroed 0 with vStart := v, vEnd := v + 0x1000, mmsz := 0x1000 }

theorem pageStarts_page (hv : v + 0x1000 < 2 ^ 64) :
    pageStarts pageFuel v (v + 0x1000) = some [v] := by
  rw [show pageFuel = 2 ^ 52 - 1 + 1 + 1 from rfl, pageStarts, if_pos (by omega), pageStarts,
    if_neg (by omega)]
  rfl

theorem vmaPages_pageVma (hv : v + 0x1000 < 2 ^ 64) :
    vmaPages [pageVma v] = some [(pageVma v, v)] := by
  simp only [vmaPages, pageVma, pageStarts_page hv, Option.bind_eq_bind, Option.bind_some,
    Option.pure_def, List.map_cons, List.map_nil, List.append_nil]

theorem userPages_pageVma (hv : v + 0x1000 < 2 ^ 39) : UserPages [pageVma v] :=
  userPages_of_range (show v + 0x1000 + 4096 ≤ 2 ^ 64 by omega) fun x _ hx => by
    have hx' : x < v + 0x1000 := hx
    rw [pml4Index_eq]
    omega

end Sbunix
