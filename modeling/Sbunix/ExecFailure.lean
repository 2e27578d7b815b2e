import Sbunix.ForkPages

/-!
# A failing exec

What `exec` should do when `loadFile` returns zero (`CleanFailure`), and what it does: the caller
is marked as ended, and its successor runs on a frame that has been made up anew.

## Main results

* `execFailed_dead` — the caller does not go on;
* `exec_failure_not_clean` — the failure is clean for no state and no path.
-/

namespace Sbunix

open ByteMem Chain

variable {k k' : Kernel} {a b : Nat} {t : Task}

/-- The page of the kernel stack that a saved `kernelRsp` lies in or just above. -/
def kernelStackPage (regs : Registers) : Nat := physOf (regs.kernelRsp - 1) / 4096

/-- **The caller of `exec` goes on, and nothing else has changed.** -/
structure CleanFailure (k k' : Kernel) : Prop where
  /-- The caller still runs, and it is marked as running. -/
  caller : k'.runningThread = k.runningThread
  alive : k'.running.state = 1
  ring : ∀ a, k'.OnRing a ↔ k.OnRing a
  /-- The registers and the kernel stacks of the other tasks are what they were. -/
  saved : ∀ a, k.OnRing a → a ≠ k.runningThread →
    (k'.phys.tasks a).regs = (k.phys.tasks a).regs
  kernelStacks : ∀ a, k.OnRing a → a ≠ k.runningThread → ∀ x,
    x / 4096 = kernelStackPage (k.phys.tasks a).regs → k'.phys.mem x = k.phys.mem x
  /-- So is the address space of the caller, -/
  space : ∀ v, pml4Index v < 511 →
    k'.phys.load v k.running.regs.cr3 = k.phys.load v k.running.regs.cr3
  /-- … and every bit of `availFrames`. -/
  frames : ∀ n, IsFree k'.phys.availFrames n ↔ IsFree k.phys.availFrames n

/-! ### State marks -/

/-- A write to a record that keeps its mark. -/
theorem state_setTask (s : Phys) (h : t.state = (s.tasks a).state) :
    ((s.setTask a t).tasks b).state = (s.tasks b).state := by
  by_cases hab : b = a
  · subst hab
    simpa only [Phys.setTask, Function.update_self] using h
  · simp only [Phys.setTask, Function.update_of_ne hab]

theorem state_activate (k : Kernel) (a b : Nat) :
    ((k.activate a).phys.tasks b).state = (k.phys.tasks b).state := by
  unfold Kernel.activate
  dsimp only
  split
  · exact state_setTask k.phys rfl
  · exact state_setTask k.phys rfl

/-- **The caller is marked as ended.** -/
theorem execFailed_dead {x : Nat} (hs : k.execFailed x = some k') :
    (k'.phys.tasks k.runningThread).state = 0 := by
  obtain ⟨temp, -, hk⟩ := Option.bind_eq_some_iff.mp hs
  rw [← Option.some.inj hk]
  simp only [Kernel.moveToNextProcess, state_activate, Phys.prepareInitialKernelStack,
    Phys.store64_tasks]
  simp only [Kernel.modifyTask, Phys.setNext]
  rw [state_setTask, state_setTask]
  · simp only [Phys.setTask, Function.update_self]
  · rfl
  · rfl

theorem not_cleanFailure (path : List UInt8) (args envp : List (List UInt8))
    {found : Option (Nat × Nat)} (hfail : (k.execLoader found).2.1 = 0)
    (hs : k.exec path found args envp = some k') : ¬ CleanFailure k k' := by
  intro hc
  simp only [Kernel.exec, if_pos hfail] at hs
  have hdead := execFailed_dead hs
  have halive := hc.alive
  rw [Kernel.running, hc.caller] at halive
  dsimp only at hdead
  omega

/-- **A failing `exec` is never clean**, and never comes back to its caller. -/
theorem exec_failure_not_clean (k : Kernel) (path : List UInt8) (found : Option (Nat × Nat))
    (args envp : List (List UInt8)) (hfail : (k.execLoader found).2.1 = 0) :
    ¬ ∃ k', k.exec path found args envp = some k' ∧ CleanFailure k k' :=
  fun ⟨_, hs, hc⟩ => not_cleanFailure path args envp hfail hs hc

/-- The path is not in the archive. -/
theorem exec_failure_not_clean_shell :
    ¬ ∃ k', (shell []).exec [0x78] none [] [] = some k' ∧ CleanFailure (shell []) k' :=
  exec_failure_not_clean (shell []) [0x78] none [] [] rfl

/-- **The shell starts a program that is not there.** -/
theorem shell_execs_missing_file :
    ((shell []).execLoader none).2.1 = 0 ∧
      ∀ k', (shell []).exec [0x78] none [] [] = some k' → ¬ CleanFailure (shell []) k' :=
  ⟨rfl, fun _ hs => not_cleanFailure [0x78] [] [] rfl hs⟩

end Sbunix
