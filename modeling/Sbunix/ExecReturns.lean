import Sbunix.ArgumentBlock
import Sbunix.Shell

/-!
# An exec that succeeds

`exec` of a file without segments by a task that is alone on the ring returns, when there are
pages enough (`Inv.exec_returns`). The file `emptyElf` is one, and the shell can execute it.
-/

namespace Sbunix

open ByteMem Kernel Chain

variable {image : Nat} {Γ : Nat → Use} {L D G : List Nat} {k k' : Kernel} {s s' : Phys}
  {r f n : Nat} {args envp : List (List UInt8)}

/-! ### Pages enough -/

theorem stackForUser_alive_of_le {l : Loader} {pml4 : Nat} (hx : l.phys.exhausted = false)
    (hn : n + 8 ≤ (freeFrames l.phys.availFrames).card) :
    (stackForUser l r pml4).phys.exhausted = false ∧
      n ≤ (freeFrames (stackForUser l r pml4).phys.availFrames).card := by
  obtain ⟨hx₁, hn₁⟩ := pageAllocator_live (k := n + 7) hx hn
  obtain ⟨hx₂, hn₂⟩ := mapWith_alive_of_le (v := stackTop - 0x1000)
    (p := l.phys.pageAllocator.1) (k := n + 4) hx₁ hn₁
  obtain ⟨hx₃, hn₃⟩ := mapWith_alive_of_le (v := stackTop - 0x1000)
    (p := l.phys.pageAllocator.1) (k := n + 1) hx₂ hn₂
  simp only [stackForUser]
  exact kmalloc_alive_of_le (by rw [Phys.memset_exhausted]; exact hx₃)
    (by rw [Phys.memset_availFrames]; exact hn₃)

theorem pushEnv_alive_of_le {envStart : Nat} (hx : s.exhausted = false)
    (hn : n + 4 * envp.length ≤ (freeFrames s.availFrames).card) :
    (pushEnv r s envStart envp).1.exhausted = false ∧
      n ≤ (freeFrames (pushEnv r s envStart envp).1.availFrames).card := by
  induction envp generalizing s envStart with
  | nil => exact ⟨hx, hn⟩
  | cons e rest ih =>
    rw [List.length_cons] at hn
    obtain ⟨hx₁, hn₁⟩ := kmalloc_alive_of_le (k := n + 4 * rest.length + 3) hx (by omega)
    simp only [pushEnv]
    generalize s.kmalloc = page at hx₁ hn₁ ⊢
    generalize hs : ({ page.2 with mem := writeBytes page.2.mem page.1 (e.take 512 ++ [0]) } : Phys) =
      s₁
    obtain ⟨hx₂, hn₂⟩ := mapWith_alive_of_le (v := envStart) (p := page.1)
      (k := n + 4 * rest.length) (s := s₁) (by rw [← hs]; exact hx₁)
      (by rw [← hs]; exact hn₁)
    exact ih hx₂ hn₂

theorem pushEnvPointers_avail {z i m : Nat} :
    (pushEnvPointers n s z i m).1.availFrames = s.availFrames ∧
      (pushEnvPointers n s z i m).1.exhausted = s.exhausted := by
  induction n generalizing s z i m with
  | zero => exact ⟨rfl, rfl⟩
  | succ n ih =>
    rw [pushEnvPointers]
    split
    · exact ⟨ih.1, ih.2⟩
    · exact ih

theorem pushArgs_avail {g j m : Nat} :
    (pushArgs g args s j m).1.availFrames = s.availFrames := by
  induction args generalizing s j m with
  | nil => rfl
  | cons a rest ih => rw [pushArgs, ih, Phys.store64_availFrames]

theorem argumentBlock_alive_of_le (hx : s.exhausted = false)
    (hn : n + 12 + 4 * envp.length ≤ (freeFrames s.availFrames).card) :
    (argumentBlock s r args envp).1.exhausted = false ∧
      n ≤ (freeFrames (argumentBlock s r args envp).1.availFrames).card := by
  obtain ⟨hx₁, hn₁⟩ := kmalloc_alive_of_le (k := n + 11 + 4 * envp.length) hx (by omega)
  unfold argumentBlock
  dsimp only
  generalize s.kmalloc.1 = f at *
  generalize s.kmalloc.2 = s₁ at *
  obtain ⟨hx₂, hn₂⟩ := mapWith_alive_of_le (v := 0x300000) (p := f)
    (k := n + 8 + 4 * envp.length) hx₁ (by omega)
  obtain ⟨hx₃, hn₃⟩ := pushEnv_alive_of_le (n := n + 8)
    (s := (s₁.mapPageForUser 0x300000 f r).store64 (f + 0x1000 - 8) 0) 
    (by rw [Phys.store64_exhausted]; exact hx₂) (by rw [Phys.store64_availFrames]; exact hn₂)
  generalize pushEnv r ((s₁.mapPageForUser 0x300000 f r).store64 (f + 0x1000 - 8) 0) 0x302000 envp =
    env at *
  obtain ⟨hx₄, hn₄⟩ := kmalloc_alive_of_le (k := n + 7) hx₃ hn₃
  obtain ⟨hx₅, hn₅⟩ := mapWith_alive_of_le (v := env.2) (p := env.1.kmalloc.1)
    (k := n + 4) hx₄ hn₄
  replace hx₅ : (env.1.kmalloc.2.mapPageForUser env.2 env.1.kmalloc.1 r).exhausted = false := hx₅
  replace hn₅ : n + 4 ≤ (freeFrames
    (env.1.kmalloc.2.mapPageForUser env.2 env.1.kmalloc.1 r).availFrames).card := hn₅
  generalize env.1.kmalloc.2.mapPageForUser env.2 env.1.kmalloc.1 r = s₅ at *
  obtain ⟨ha, he⟩ := pushEnvPointers_avail (n := 33) (s := s₅) (z := 0x322000) (i := env.2)
    (m := f + 0x1000 - 8)
  generalize pushEnvPointers 33 s₅ 0x322000 env.2 (f + 0x1000 - 8) = pointers at *
  obtain ⟨hx₆, hn₆⟩ := kmalloc_alive_of_le (k := n + 3)
    (s := pointers.1.store64 (pointers.2 - 8) 0) (by rw [Phys.store64_exhausted, he]; exact hx₅)
    (by rw [Phys.store64_availFrames, ha]; exact hn₅)
  generalize (pointers.1.store64 (pointers.2 - 8) 0).kmalloc = page at *
  rw [Phys.store64_exhausted, Phys.store64_availFrames]
  exact mapWith_alive_of_le (by rw [pushArgs_exhausted]; exact hx₆)
    (by rw [pushArgs_avail]; exact hn₆)

/-! ### The way through exec -/

/-- A file without program headers has nothing to load. -/
theorem loadFile_noSegments {l : Loader} {elf size : Nat}
    (hmagic : validateElfFile l.phys.mem elf = true) (hoff : ePhoff l.phys.mem elf ≤ size)
    (hsize : size < 2 ^ 64) (hnum : ePhnum l.phys.mem elf = 0) :
    loadFile l (some (elf, size)) r = (eEntry l.phys.mem elf, l) := by
  have hend : ¬ size < (ePhoff l.phys.mem elf + 0 * 56) % 2 ^ 64 := by
    rw [Nat.mod_eq_of_lt (by omega)]
    omega
  simp only [loadFile, hmagic, hnum, Bool.true_eq_false, if_false, if_neg hend, List.range_zero,
    loadSegments, if_true]

/-- A task that is its own successor is its own predecessor. -/
theorem deleteRunningThreadAndJump_alone {t : Nat}
    (hself : k.phys.next k.runningThread = k.runningThread) (ht : t ≠ k.runningThread) :
    ∃ k', k.deleteRunningThreadAndJump t = some k' := by
  have hnext : (k.phys.setNext t (k.phys.next k.runningThread)).next k.runningThread =
      k.runningThread := by
    rw [Phys.next_setNext, Function.update_of_ne ht.symm, hself]
  have hfind : ({ k with phys := k.phys.setNext t (k.phys.next k.runningThread) } : Kernel).findPred
      k.runningThread k.runningThread = some k.runningThread :=
    find_of_seg (l := []) rfl (by simp) (by simp [hnext]) (by decide)
  unfold Kernel.deleteRunningThreadAndJump
  simp only [Option.bind_eq_bind]
  rw [hfind, Option.bind_some]
  exact ⟨_, rfl⟩

/-- **`exec` by the only task** returns, for a file without segments. -/
theorem Inv.exec_returns (h : Inv image Γ [k.runningThread] D G k) {elf size : Nat}
    {path : List UInt8} (helf : elf + size ≤ image) (hL : Loadable k.phys.mem elf size)
    (hnum : ePhnum k.phys.mem elf = 0) (hpath : path.length ≤ 14) (hargs : args.length ≤ 400)
    (hroom : room args ≤ 512) (henvp : envp.length ≤ 32) (hshort : ∀ e ∈ envp, e.length ≤ 512)
    (hx : k.phys.exhausted = false)
    (hn : 25 + 4 * envp.length ≤ (freeFrames k.phys.availFrames).card) :
    ∃ k', k.exec path (some (elf, size)) args envp = some k' ∧ k'.phys.exhausted = false := by
  obtain ⟨hx₁, hn₁⟩ := kmalloc_alive_of_le (k := 24 + 4 * envp.length) hx (by omega)
  obtain ⟨hx₂, hn₂⟩ := kmalloc_alive_of_le (k := 23 + 4 * envp.length) hx₁ (by omega)
  rcases hnew : k.phys.kmalloc.2.getNewPML4ForUser k.cr3 with ⟨root, s₀⟩
  have hs₀ : s₀ = (k.phys.kmalloc.2.getNewPML4ForUser k.cr3).2 := by rw [hnew]
  have hx₀ : s₀.exhausted = false := by
    rw [hs₀]
    simpa only [Phys.getNewPML4ForUser, Phys.store64_exhausted] using hx₂
  have hn₀ : 23 + 4 * envp.length ≤ (freeFrames s₀.availFrames).card := by
    rw [hs₀]
    simpa only [Phys.getNewPML4ForUser, Phys.store64_availFrames] using hn₂
  -- the stack, and a file that brings nothing else
  have hn₀' : 15 + 4 * envp.length + 8 ≤
      (freeFrames (⟨s₀, [], k.pageNum⟩ : Loader).phys.availFrames).card :=
    show _ ≤ (freeFrames s₀.availFrames).card by omega
  obtain ⟨hx₃, hn₃⟩ : (stackForUser ⟨s₀, [], k.pageNum⟩ root k.pml4).phys.exhausted = false ∧
      15 + 4 * envp.length ≤
        (freeFrames (stackForUser ⟨s₀, [], k.pageNum⟩ root k.pml4).phys.availFrames).card :=
    stackForUser_alive_of_le hx₀ hn₀'
  obtain ⟨-, Γ₁, Γ₂, q, hF, hP₂, hleaf, harch, hmem⟩ := h.stackBuilt helf hnew hx₃
  generalize hl : stackForUser ⟨s₀, [], k.pageNum⟩ root k.pml4 = l at hx₃ hn₃ hP₂ hleaf
  have hsame : ∀ x, elf ≤ x → x < elf + size → l.phys.mem x = k.phys.mem x := fun x hx hx' =>
    (harch.mem hP₂.builds hx hx').trans (hmem x hx hx')
  obtain ⟨hmagic, hphnum, hphoff, hentry⟩ := elfHeader_congr hL.header hsame
  have hload : loadFile l (some (elf, size)) root = (eEntry k.phys.mem elf, l) := by
    rw [loadFile_noSegments (hmagic.trans hL.magic) (by have := hL.headers; omega) hL.bound
      (hphnum.trans hnum), hentry]
  have hroot : (userShape k.pml4 (root :: G)).Root root := Or.inr List.mem_cons_self
  -- the argument block leaves the stack mapped
  obtain ⟨hxb, hnb⟩ : (argumentBlock l.phys root args envp).1.exhausted = false ∧
      3 ≤ (freeFrames (argumentBlock l.phys root args envp).1.availFrames).card :=
    argumentBlock_alive_of_le hx₃ (by omega)
  obtain ⟨Γ₃, f, g, E, hP₃, -, -, -, hk₃⟩ := argumentBlock_block hP₂ hroot (Or.inl rfl)
    (userShape_accepts k.pml4 (root :: G) root) rfl hargs hroom henvp hshort hxb
  generalize hblock : argumentBlock l.phys root args envp = block at hxb hnb hP₃ hk₃
  have htop : pml4Index (stackTop - 8) < 511 := by decide
  have hstack : block.1.leaf (stackTop - 8) root = some (q + 7) := by
    have hpage : ¬ OtherPage (stackTop - 0x1000) (stackTop - 8) := by
      unfold OtherPage
      decide
    rw [← leaf_same_page hpage] at hleaf
    exact ((hk₃.leaf (stackTop - 8) ⟨htop, by decide⟩).eq_some (by omega)).mpr hleaf
  obtain ⟨a, ha⟩ : ∃ a, block.1.translate (stackTop - 8) root = some a := by
    obtain h0 | ⟨q', hq', hqe⟩ := hP₃.leaves _ _ htop hstack
    · omega
    · exact ⟨_, translate_of_leaf (data_aligned hP₃.builds.typed hq'.1).1 hstack hqe⟩
  have hpush : pushUser block.1 stackTop (0x301000 - block.2 - 8) root =
      some (block.1.store64 a (0x301000 - block.2 - 8)) := by
    rw [pushUser, ha, Option.map_some]
  have hP₄ := pushUser_populates hP₃ hroot htop (by decide) hpush
  generalize hs₁ : block.1.store64 a (0x301000 - block.2 - 8) = s₁ at hpush hP₄
  have hx₅ : s₁.exhausted = false := by rw [← hs₁, Phys.store64_exhausted]; exact hxb
  have hn₅ : 3 ≤ (freeFrames s₁.availFrames).card := by
    rw [← hs₁, Phys.store64_availFrames]
    exact hnb
  obtain ⟨hx₆, hn₆⟩ := kmalloc_alive_of_le (k := 2) hx₅ hn₅
  obtain ⟨hx₇, hn₇⟩ := kmalloc_alive_of_le (k := 1) hx₆ hn₆
  obtain ⟨hx₈, -⟩ := kmalloc_alive_of_le (k := 0) hx₇ hn₇
  rcases h₂ : s₁.kmalloc with ⟨a₂, s₂⟩
  rcases h₃ : s₂.kmalloc with ⟨g₃, s₃⟩
  rcases h₄ : s₃.kmalloc with ⟨b₄, s₄⟩
  have hx₄ : s₄.exhausted = false := by rwa [h₂, h₃, h₄] at hx₈
  obtain ⟨Γ₆, hP₆, hg₆, hg₀, hgt, -⟩ := hP₄.records hroot h₂ h₃ h₄ hx₄
  -- the jump finds the running task in front of itself
  obtain ⟨c, hc, hΓc⟩ := h.record k.runningThread (by simp)
  have hB₆ := (hF.builds.mono fun r hr => Or.inl hr).trans hP₆.builds
  have hrun : s₄.tasks k.runningThread = k.running := by
    rw [hc, hB₆.tasks c (by simp [hΓc]), ← hc]
    rfl
  have hcf : c ≠ k.phys.kmalloc.1 := fun hcf => by
    have := hF.recordNew
    rw [← hcf, hΓc] at this
    cases this
  have hcg : c ≠ g₃ := fun hcg => by
    have := hF.builds.new hg₀
    rw [← hcg, hΓc] at this
    cases this
  have hne : kernbase + k.phys.kmalloc.1 ≠ k.runningThread := fun hk => hcf (by omega)
  have hentry₀ := hL.entryPoint
  have hlong : ¬ path.length > 14 := by omega
  simp only [Kernel.exec, Kernel.execLoader, hnew, hl, hload, if_neg hentry₀, Kernel.execLoaded,
    hblock, hpush, Option.bind_eq_bind, Option.bind_some, h₂, h₃, h₄, if_neg hlong]
  generalize ht : createNewExecTask _ _ _ _ _ _ _ _ = t
  have hrsp : ((s₄.setTask (kernbase + k.phys.kmalloc.1) t).tasks
      (kernbase + k.phys.kmalloc.1)).regs.kernelRsp = kernbase + g₃ + 0x1000 := by
    rw [setTask_self, ← ht]
    rfl
  have he := prepareInitialKernelStack_edits (s := s₄.setTask (kernbase + k.phys.kmalloc.1) t)
    hgt.lt hgt.aligned hrsp
  have hself : ((s₄.setTask (kernbase + k.phys.kmalloc.1) t).prepareInitialKernelStack
      ((s₄.setTask (kernbase + k.phys.kmalloc.1) t).tasks
        (kernbase + k.phys.kmalloc.1)).regs).next k.runningThread = k.runningThread := by
    rw [Phys.next, hc, he.tasks c hcg, (setTask_edits s₄ k.phys.kmalloc.1 t).tasks c hcf, ← hc, hrun]
    exact h.ring.seg.2
  obtain ⟨k', hk'⟩ := deleteRunningThreadAndJump_alone (t := kernbase + k.phys.kmalloc.1)
    (k := { k with
      phys := (s₄.setTask (kernbase + k.phys.kmalloc.1) t).prepareInitialKernelStack
        ((s₄.setTask (kernbase + k.phys.kmalloc.1) t).tasks (kernbase + k.phys.kmalloc.1)).regs
      pidCount := intSucc k.pidCount
      pageNum := intSucc l.pageNum
      foregroundPid := (s₄.tasks k.runningThread).pidT }) hself hne
  refine ⟨k', hk', ?_⟩
  rw [deleteRunningThreadAndJump_exhausted hk']
  dsimp only
  rw [prepareInitialKernelStack_exhausted]
  exact hx₄

/-! ### The shell executes a file -/

/-- An executable at `0x100` with nothing but a header; its entry point is `0x400000`. -/
def emptyElf (x : Nat) : UInt8 :=
  if x = 0x100 then 0x7F
  else if x = 0x101 then 0x45
  else if x = 0x102 then 0x4C
  else if x = 0x103 then 0x46
  else if x = 0x110 then 2
  else if x = 0x11A then 0x40
  else 0

theorem emptyElf_loadable : Loadable emptyElf 0x100 64 ∧ ePhnum emptyElf 0x100 = 0 := by
  have hnum : ePhnum emptyElf 0x100 = 0 := by decide
  refine ⟨⟨by decide, by decide, by decide, fun i hi => ?_, fun i hi => ?_, by decide, by decide⟩,
    hnum⟩
  · rw [hnum] at hi
    cases hi
  · have := hi.1
    rw [hnum] at this
    cases this

/-- The shell, with that file in the kernel image. -/
def shellElf : Kernel := { shell [] with phys := { (shell []).phys with mem := emptyElf } }

theorem shellElf_inv : Inv 0x1000 shellTyping [shellElf.runningThread] [] [0x2000] shellElf :=
  (shell_inv (by simp [UserPages])).edits (f := 0) (by simp [shellTyping]) (by simp [shellTyping])
    ⟨rfl, rfl, fun x hx => by
      have : 0x1000 ≤ x := by omega
      unfold emptyElf
      simp only [shell]
      split_ifs <;> first | omega | rfl, fun _ _ => rfl⟩ rfl

/-- **The shell executes the file.** -/
theorem shellElf_exec (hargs : args.length ≤ 400) (hroom : room args ≤ 512)
    (henvp : envp.length ≤ 5) (hshort : ∀ e ∈ envp, e.length ≤ 512) :
    ∃ k', shellElf.exec [0x78] (some (0x100, 64)) args envp = some k' ∧
      k'.phys.exhausted = false :=
  shellElf_inv.exec_returns (by decide) emptyElf_loadable.1 emptyElf_loadable.2 (by decide) hargs
    hroom (by omega) hshort rfl (le_trans (show _ ≤ 48 by omega) (@shell_room []))

end Sbunix
