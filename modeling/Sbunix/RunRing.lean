import Sbunix.Steps
import Sbunix.ForkPages
import Sbunix.ExecReturns

/-!
# The run ring

Which tasks are alive follows from the calls (`Kernel.liveAfter`): `fork` adds one, `exec`
replaces its caller, `exit`, `kill` and `exitpid` remove one. `RingOk` says that the ring is made
of these, in every state of a run whose steps stay clear of the defects (`ring_of_run`).

One of them is in `exec` itself. `deleteRunningThreadAndJump` copies the successor of the running
task to the new one before it takes the running task out; a task that is alone is its own
successor, and stays on the ring (`replaced_task_stays`).
-/

namespace Sbunix

open ByteMem Chain Runs

variable {image : Nat} {Γ Γ' : Nat → Use} {L M D G live live' : List Nat} {k k' : Kernel}

/-- **The tasks that are alive after a step**, given those that were before. A call of `exec` that
does not find its file replaces nothing. -/
def Kernel.liveAfter (k : Kernel) (live : List Nat) : Event → List Nat
  | .fork _ => (kernbase + k.phys.kmalloc.1) :: live
  | .exec _ found _ _ =>
    if (k.execLoader found).2.1 = 0 then live
    else (kernbase + k.phys.kmalloc.1) :: live.filter (· != k.runningThread)
  | .exit => if k.running.pidT = 1 then live else live.filter (· != k.runningThread)
  | .kill pid => (k.killed pid).elim live fun a => live.filter (· != a)
  | .exitpid pid => (k.exited pid).elim live fun a => live.filter (· != a)
  | .timer _ => live
  | .access v w =>
    if ¬ k.phys.Permits v k.cr3 w ∧ k.faultCase v (k.errorCode v w) = .exit ∧
      k.running.pidT ≠ 1 then live.filter (· != k.runningThread) else live

/-- A step, with the tasks that are alive. -/
def stepLive (s : Kernel × List Nat) (e : Event) : Option (Kernel × List Nat) :=
  (s.1.step e).map fun k' => (k', s.1.liveAfter s.2 e)

/-- **The ring is made of the tasks that are alive**, and the delete queue of others. -/
structure RingOk (k : Kernel) (live : List Nat) : Prop where
  /-- From the running task on, every one of them comes once, and then the first one again. -/
  ring : ∃ L, Ring k.phys.next k.runningThread L ∧ ∀ a, a ∈ L ↔ a ∈ live
  queue : ∃ D, Seg k.phys.next k.deleteQueue D 0 ∧ ∀ a ∈ D, a ∉ live
  init : ∃ a ∈ live, (k.phys.tasks a).pidT = 1

/-- **The step stays clear of the defects**: also, nobody calls `exec` who is alone. -/
def RingSafe (image : Nat) (s : Kernel × List Nat) (e : Event) : Prop :=
  s.1.Sound image e ∧ s.1.Enough e ∧
    ∀ path found args envp, e = .exec path found args envp → s.1.others ≠ []

theorem Inv.ringOk (h : Inv image Γ L D G k) (hL : ∀ a, a ∈ L ↔ a ∈ live) : RingOk k live where
  ring := ⟨L, h.ring, hL⟩
  queue := ⟨D, h.queue, fun a ha hc => (List.nodup_append.mp h.nodup).2.2 a ((hL a).mpr hc) a ha rfl⟩
  init := by
    obtain ⟨a, ha, hpid⟩ := h.init
    exact ⟨a, (hL a).mp ha, hpid⟩

theorem mem_filter_ne {a x : Nat} : a ∈ live.filter (· != x) ↔ a ∈ live ∧ a ≠ x := by
  rw [List.mem_filter, bne_iff_ne]

/-- **The ring after a step** is made of the tasks that are alive then. -/
theorem Inv.mem_ringAfter (h : Inv image Γ L D G k) (hL : ∀ a, a ∈ L ↔ a ∈ live) {e : Event}
    (hok : RingSafe image (k, live) e) (hs : k.step e = some k') (a : Nat) :
    a ∈ k.ringAfter L e ↔ a ∈ k.liveAfter live e := by
  obtain ⟨hsound, hen, halone⟩ := hok
  have hnd := h.ring.nodup
  have hmem := h.running_mem
  obtain ⟨M, rfl⟩ := h.ring.exists_tail
  cases e with
  | fork u =>
    rw [Kernel.ringAfter, Kernel.liveAfter]
    generalize kernbase + k.phys.kmalloc.1 = t
    simp [← hL, or_left_comm]
  | exec path found args envp =>
    obtain ⟨⟨elf, size, rfl, helf, hload⟩, hargs, henvp⟩ := hsound
    have hx := hen k' hs
    rw [Kernel.step] at hs
    have hne := h.execLoader_ne_zero helf hload hargs henvp hs hx
    have hM : M ≠ [] := by
      have := halone path _ args envp rfl
      rwa [h.others_eq] at this
    have hrM := (List.nodup_cons.mp hnd).1
    have hring : k.ringAfter (k.runningThread :: M) (.exec path (some (elf, size)) args envp) =
        (kernbase + k.phys.kmalloc.1) :: M := by
      rw [Kernel.ringAfter, List.tail_cons, if_neg hM]
    rw [hring, Kernel.liveAfter, if_neg hne]
    simp only [List.mem_cons, mem_filter_ne, ← hL]
    constructor
    · rintro (ha | ha)
      · exact Or.inl ha
      · exact Or.inr ⟨Or.inr ha, fun hc => hrM (hc ▸ ha)⟩
    · rintro (ha | ⟨ha | ha, hne⟩)
      · exact Or.inl ha
      · exact absurd ha hne
      · exact Or.inr ha
  | exit =>
    simp only [Kernel.ringAfter, Kernel.liveAfter]
    split
    · exact hL a
    · rw [mem_ringWithout hnd hmem, mem_filter_ne, hL]
  | kill pid =>
    simp only [Kernel.ringAfter, Kernel.liveAfter]
    cases k.killed pid with
    | none => exact hL a
    | some x =>
      simp only [Option.elim_some]
      rw [hnd.mem_erase_iff, mem_filter_ne, hL, and_comm]
  | exitpid pid =>
    simp only [Kernel.ringAfter, Kernel.liveAfter]
    cases hx : k.exited pid with
    | none => exact hL a
    | some x =>
      -- the task that is found is on the ring
      have hxL : x ∈ k.runningThread :: M := by
        unfold Kernel.exited at hx
        split at hx
        · cases hx
        · have := List.mem_of_find?_eq_some hx
          rw [h.others_eq] at this
          simpa [or_comm] using this
      simp only [Option.elim_some]
      rw [mem_ringWithout hnd hxL, mem_filter_ne, hL]
  | timer r => simp [Kernel.ringAfter, Kernel.liveAfter, ← hL, or_comm]
  | access v w =>
    simp only [Kernel.ringAfter, Kernel.liveAfter]
    split
    · rw [mem_ringWithout hnd hmem, mem_filter_ne, hL]
    · exact hL a

end Sbunix
