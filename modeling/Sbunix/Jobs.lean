import Sbunix.Keyboard
import Sbunix.Processes

/-!
# Jobs

The shell over the kernel: `fork_execution` of `bin/sbush` forks, and asks `waitpid` for the child
until it is told that the child has gone; behind a `&` it asks once. In the meantime the other
processes do what they like, and Ctrl-C may be pressed, which acts on `foregroundPid`: `exec` writes
its pid there, whether the shell waits for it or not.

* `jobs_of_run` — at the prompt no process is left that has been started in the foreground, and the
  prompt comes back as soon as the one that is waited for has gone;
* `ctrlC_of_run` — Ctrl-C ends the process that has called `exec` last since the last Ctrl-C, if it
  has not ended, and nothing else.
-/

namespace Sbunix

open ByteMem Chain Runs Numbered Census

/-! ### The code -/

def Kernel.setforegroundPid (k : Kernel) (pid : Int) : Kernel := { k with foregroundPid := pid }

/-- What the handler of the keyboard does for Ctrl-C. -/
def Kernel.ctrlC (k : Kernel) : Option Kernel :=
  let pid := k.foregroundPid
  if pid ≠ 0 then (k.setforegroundPid 0).exitpid pid else some k

theorem Desk.ctrlC_eq (d : Desk) :
    d.ctrlC = d.kernel.ctrlC.map fun k => { d with kernel := k } := by
  rw [Desk.ctrlC, Kernel.ctrlC]
  dsimp only
  split
  · rw [Option.map_eq_bind]
    rfl
  · rfl

/-- `WIFEXITED`. -/
def wifexited (status : Nat) : Bool := status % 128 == 0

/-- Where the shell is: in front of a command, or behind the `fork` for one. -/
inductive Shell
  | prompt
  | waiting (pid : Int) (background : Bool)
  deriving DecidableEq

/-- The kernel, the shell, what it has started (the pid, and whether in the background), and the
record that the last `exec` has put on the ring, unless Ctrl-C has been pressed since. -/
structure Jobs where
  census : Census
  shell : Shell
  started : List (Int × Bool)
  launched : Option Nat

/-- What happens: something in another process, or a switch; a command of the shell, or a `waitpid`
of it; Ctrl-C. -/
inductive JobEvent
  | kernel (e : Event)
  | command (u : UserRegs) (background : Bool)
  | wait
  | ctrlC

namespace Jobs

def kernel (j : Jobs) : Kernel := j.census.numbered.kernel

/-- The beginning of `fork_execution`, in the parent. -/
def forkExecution (j : Jobs) (u : UserRegs) (background : Bool) : Option Jobs := do
  let (pid, kernel) ← j.kernel.fork u
  let census : Census :=
    ⟨⟨kernel, pid :: j.census.numbered.returned, j.census.numbered.calls + 1⟩, j.census.ended⟩
  -- with pid 0 the shell goes on as its child does
  if pid = 0 then none
  else if pid < 0 then return { j with census := census }
  else
    return { j with
      census := census
      shell := .waiting pid background
      started := (pid, background) :: j.started }

/-- A call of `waitpid` in `fork_execution`. -/
def waitpid (j : Jobs) : Option Jobs :=
  match j.shell with
  | .prompt => none
  | .waiting pid background => do
    let (status, _) ← j.kernel.waitpid (word pid)
    return if background ∨ wifexited status then { j with shell := .prompt } else j

/-- The census without a process in the foreground. -/
def cleared (j : Jobs) : Census :=
  { j.census with
    numbered := { j.census.numbered with kernel := j.kernel.setforegroundPid 0 } }

/-- Ctrl-C, with its entry in the census. -/
def ctrlC (j : Jobs) : Option Jobs :=
  let pid := j.kernel.foregroundPid
  if pid ≠ 0 then (j.cleared.step (.exitpid pid)).map fun census =>
    { j with census := census, launched := none }
  else some { j with launched := none }

/-- What has been launched last, after an event. -/
def launchedAfter (j : Jobs) (census : Census) : Event → Option Nat
  | .exec .. => some census.numbered.kernel.runningThread
  | _ => j.launched

def step (j : Jobs) : JobEvent → Option Jobs
  | .kernel e => (j.census.step e).map fun census =>
    { j with census := census, launched := j.launchedAfter census e }
  | .command u background => if j.shell = .prompt then j.forkExecution u background else none
  | .wait => j.waitpid
  | .ctrlC => j.ctrlC

/-- **The runs in question** stay clear of the defects, and the shell does something only when it
runs. -/
def Safe (image : Nat) (j : Jobs) : JobEvent → Prop
  | .kernel e => Census.Safe image j.census e
  | .command u _ => Census.Safe image j.census (.fork u) ∧ j.kernel.running.pidT = 1
  | .wait => j.kernel.running.pidT = 1
  | .ctrlC => j.kernel.foregroundPid ≠ 0 →
    Census.Safe image j.cleared (.exitpid j.kernel.foregroundPid)

/-- The shell alone, at its prompt. -/
def start (k : Kernel) : Jobs := ⟨⟨⟨k, [], 0⟩, []⟩, .prompt, [], none⟩

end Jobs

/-! ### The foreground -/

variable {image : Nat} {Γ : Nat → Use} {L D G : List Nat} {k k' : Kernel} {x : Nat}

theorem Kernel.activate_foregroundPid (k : Kernel) (a : Nat) :
    (k.activate a).foregroundPid = k.foregroundPid := by
  unfold Kernel.activate
  dsimp only
  split <;> rfl

theorem addToDeleteQueue_foregroundPid (hs : k.addToDeleteQueue x = some k') :
    k'.foregroundPid = k.foregroundPid := by
  unfold Kernel.addToDeleteQueue at hs
  split at hs
  · obtain rfl := Option.some.inj hs
    rfl
  · simp only [Option.bind_eq_bind] at hs
    obtain ⟨temp, -, hs⟩ := Option.bind_eq_some_iff.mp hs
    obtain rfl := Option.some.inj hs
    rfl

theorem runNextTask_foregroundPid {regs : SwitchRegs} (hs : k.runNextTask regs = some k') :
    k'.foregroundPid = k.foregroundPid := by
  unfold Kernel.runNextTask at hs
  dsimp only at hs
  set k₁ := k.modifyTask k.runningThread _ with hk₁
  set next := k₁.phys.next k₁.runningThread with hnext
  have hc := { k₁ with runningThread := next }.activate_foregroundPid next
  split at hs
  · simp only [Option.bind_eq_bind] at hs
    obtain ⟨k₃, hk₃, hs⟩ := Option.bind_eq_some_iff.mp hs
    obtain rfl := Option.some.inj hs
    unfold Kernel.changeToAlarmFunction at hk₃
    obtain ⟨a, -, rfl⟩ := Option.map_eq_some_iff.mp hk₃
    exact hc
  · simp only [Option.bind_eq_bind, Option.bind_some] at hs
    obtain rfl := Option.some.inj hs
    exact hc

theorem terminate_foregroundPid (hs : k.terminate x = some k') :
    k'.foregroundPid = k.foregroundPid := by
  unfold Kernel.terminate at hs
  simp only [Option.bind_eq_bind] at hs
  obtain ⟨s₂, -, hs⟩ := Option.bind_eq_some_iff.mp hs
  generalize s₂.freePageTables (s₂.tasks x).regs.cr3 = s₃ at hs
  obtain ⟨temp, -, hs⟩ := Option.bind_eq_some_iff.mp hs
  obtain ⟨k₄, hk₄, hs⟩ := Option.bind_eq_some_iff.mp hs
  have hsame := addToDeleteQueue_foregroundPid hk₄
  obtain rfl := Option.some.inj hs
  exact (Kernel.activate_foregroundPid _ _).trans hsame

theorem kill_foregroundPid {pid : Nat} (hs : k.kill pid = some k') :
    k'.foregroundPid = k.foregroundPid := by
  unfold Kernel.kill at hs
  split at hs
  · obtain rfl := Option.some.inj hs
    rfl
  · simp only [Option.bind_eq_bind] at hs
    obtain ⟨task, -, hs⟩ := Option.bind_eq_some_iff.mp hs
    split at hs
    · obtain rfl := Option.some.inj hs
      rfl
    · obtain ⟨s₂, -, hs⟩ := Option.bind_eq_some_iff.mp hs
      generalize s₂.freePageTables _ = s₃ at hs
      have hsame := addToDeleteQueue_foregroundPid hs
      exact hsame

theorem createChildTask_foregroundPid {task : Nat} {u : UserRegs}
    (hs : k.createChildTask task u = some k') : k'.foregroundPid = k.foregroundPid := by
  rw [Kernel.createChildTask, Option.bind_eq_bind] at hs
  obtain ⟨s₂, -, hs⟩ := Option.bind_eq_some_iff.mp hs
  obtain rfl := Option.some.inj hs
  rfl

theorem fork_foregroundPid {u : UserRegs} {pid : Int} (hs : k.fork u = some (pid, k')) :
    k'.foregroundPid = k.foregroundPid := by
  unfold Kernel.fork at hs
  dsimp only at hs
  generalize k.phys.kmalloc.2 = phys, kernbase + k.phys.kmalloc.1 = task at hs
  simp only [Option.bind_eq_bind] at hs
  obtain ⟨k₁, hk₁, hs⟩ := Option.bind_eq_some_iff.mp hs
  obtain ⟨s, -, hs⟩ := Option.bind_eq_some_iff.mp hs
  simp only [Option.pure_def, Option.some.injEq, Prod.mk.injEq] at hs
  obtain ⟨-, rfl⟩ := hs
  have hsame := createChildTask_foregroundPid hk₁
  dsimp only [Kernel.addToQueue]
  exact hsame

/-- **Only `exec`** writes the pid that Ctrl-C is for. -/
theorem step_foregroundPid {e : Event} (hs : k.step e = some k')
    (hexec : ∀ path found args envp, e ≠ .exec path found args envp)
    (haccess : ∀ v w, e ≠ .access v w) : k'.foregroundPid = k.foregroundPid := by
  cases e with
  | fork u =>
    obtain ⟨⟨pid, k''⟩, hf, rfl⟩ := Option.map_eq_some_iff.mp hs
    exact fork_foregroundPid hf
  | exec path found args envp => exact absurd rfl (hexec path found args envp)
  | exit =>
    replace hs : k.exit = some k' := hs
    unfold Kernel.exit at hs
    split at hs
    · obtain rfl := Option.some.inj hs
      rfl
    · exact terminate_foregroundPid hs
  | kill pid => exact kill_foregroundPid hs
  | exitpid pid =>
    replace hs : k.exitpid pid = some k' := hs
    unfold Kernel.exitpid at hs
    split at hs
    · obtain rfl := Option.some.inj hs
      rfl
    · simp only [Option.bind_eq_bind] at hs
      obtain ⟨y, -, hs⟩ := Option.bind_eq_some_iff.mp hs
      split at hs
      · obtain rfl := Option.some.inj hs
        rfl
      · exact terminate_foregroundPid hs
  | timer r => exact runNextTask_foregroundPid hs
  | access v w => exact absurd rfl (haccess v w)

/-- **`exec`** writes its own pid there. -/
theorem Inv.exec_foregroundPid (h : Inv image Γ L D G k) {path : List UInt8}
    {found : Option (Nat × Nat)} {args envp : List (List UInt8)}
    (hok : k.Sound image (.exec path found args envp))
    (hs : k.exec path found args envp = some k') (hx : k'.phys.exhausted = false) :
    k'.foregroundPid = k.running.pidT ∧ k'.runningThread = kernbase + k.phys.kmalloc.1 := by
  obtain ⟨-, hpid, -⟩ := h.exec_ids hok hs hx
  obtain ⟨⟨elf, size, rfl, helf, hL⟩, hargs, henvp⟩ := hok
  obtain ⟨root, k₂, Γ', -, -, -, -, hne, -⟩ := h.newImage helf hL hargs henvp hs hx
  rw [← hpid]
  unfold Kernel.exec at hs
  dsimp only at hs
  rw [if_neg hne] at hs
  generalize kernbase + k.phys.kmalloc.1 = task at hs ⊢
  unfold Kernel.execLoaded at hs
  simp only [Option.bind_eq_bind] at hs
  obtain ⟨s₁, -, hs⟩ := Option.bind_eq_some_iff.mp hs
  split at hs
  · cases hs
  · -- the record has this pid, too
    have hsame := quiet_pidT.unlinked.deleteRunningThreadAndJump hs task
    rw [hsame]
    unfold Kernel.deleteRunningThreadAndJump at hs
    simp only [Option.bind_eq_bind] at hs
    obtain ⟨temp, -, hs⟩ := Option.bind_eq_some_iff.mp hs
    obtain rfl := Option.some.inj hs
    refine ⟨(Kernel.activate_foregroundPid _ _).trans ?_, ?_⟩
    · rw [tasks_prepareInitialKernelStack]
      rfl
    · unfold Kernel.moveToNextProcess Kernel.activate
      dsimp only
      split <;> dsimp only [Kernel.modifyTask]

theorem Inv.setforegroundPid (h : Inv image Γ L D G k) (pid : Int) :
    Inv image Γ L D G (k.setforegroundPid pid) :=
  ⟨h.toSpaces, h.ring, h.queue, h.nodup, h.cr3, h.init⟩

/-- A record that is kept stays on the ring or goes to the queue, unless `exec` replaces it. -/
theorem Inv.stays (h : Inv image Γ L D G k) {e : Event} (hx : x ∈ L ++ D)
    (hexec : ∀ path found args envp, e ≠ .exec path found args envp)
    (haccess : ∀ v w, e ≠ .access v w) : x ∈ k.ringAfter L e ++ k.queueAfter D e := by
  -- one task is taken off the ring, and queued
  have hmoved : ∀ y ∈ L, ∀ L', (∀ a, a ∈ L → a ≠ y → a ∈ L') → x ∈ L' ++ (D ++ [y]) := by
    intro y hy L' hL'
    rcases List.mem_append.mp hx with hxL | hxD
    · by_cases hxy : x = y
      · exact List.mem_append_right L' (List.mem_append_right D (List.mem_singleton.mpr hxy))
      · exact List.mem_append_left _ (hL' x hxL hxy)
    · exact List.mem_append_right L' (List.mem_append_left [y] hxD)
  have hnd := h.ring.nodup
  cases e with
  | fork u =>
    obtain ⟨M, rfl⟩ := h.ring.exists_tail
    simp only [Kernel.ringAfter, Kernel.queueAfter]
    generalize kernbase + k.phys.kmalloc.1 = t
    simp only [List.mem_append, List.mem_cons, List.tail_cons, List.take_succ_cons, List.take_zero,
      List.not_mem_nil, or_false] at hx ⊢
    tauto
  | exec path found args envp => exact absurd rfl (hexec path found args envp)
  | exit =>
    rw [Kernel.ringAfter, Kernel.queueAfter]
    split
    · exact hx
    · exact hmoved _ h.running_mem _ fun a ha hne =>
        (mem_ringWithout hnd h.running_mem).mpr ⟨ha, hne⟩
  | kill pid =>
    rw [Kernel.ringAfter, Kernel.queueAfter]
    cases hk : k.killed pid with
    | none => exact hx
    | some y => exact hmoved y (h.killed_mem hk).1 _ fun a ha hne =>
        hnd.mem_erase_iff.mpr ⟨hne, ha⟩
  | exitpid pid =>
    rw [Kernel.ringAfter, Kernel.queueAfter]
    cases hk : k.exited pid with
    | none => exact hx
    | some y => exact hmoved y (h.exited_mem hk).1 _ fun a ha hne =>
        (mem_ringWithout hnd (h.exited_mem hk).1).mpr ⟨ha, hne⟩
  | timer r =>
    obtain ⟨M, rfl⟩ := h.ring.exists_tail
    simp only [Kernel.ringAfter, Kernel.queueAfter, List.mem_append, List.mem_cons, List.tail_cons,
      List.take_succ_cons, List.take_zero, List.not_mem_nil, or_false] at hx ⊢
    tauto
  | access v w => exact absurd rfl (haccess v w)

/-! ### What a step does -/

namespace Jobs

variable {j j' : Jobs} {e : JobEvent} {p : Int}

theorem ctrlC_kernel (hs : j.ctrlC = some j') : j.kernel.ctrlC = some j'.kernel := by
  rw [ctrlC] at hs
  rw [Kernel.ctrlC]
  split at hs
  · next h =>
    obtain ⟨c, hc, rfl⟩ := Option.map_eq_some_iff.mp hs
    obtain ⟨s, hstep, rfl⟩ := Option.map_eq_some_iff.mp hc
    rw [if_pos h]
    exact kernel_step hstep
  · next h =>
    obtain rfl := Option.some.inj hs
    rw [if_neg h]
    rfl

theorem forkExecution_census {u : UserRegs} {background : Bool}
    (hs : j.forkExecution u background = some j') :
    j.census.step (.fork u) = some j'.census ∧ j'.launched = j.launched ∧
      ((j'.shell = j.shell ∧ j'.started = j.started) ∨
        ∃ pid, j'.shell = .waiting pid background ∧ j'.started = (pid, background) :: j.started ∧
          j'.census.numbered.returned = pid :: j.census.numbered.returned) := by
  rw [forkExecution, Option.bind_eq_bind] at hs
  obtain ⟨⟨pid, kernel⟩, hf, hs⟩ := Option.bind_eq_some_iff.mp hs
  have hstep : j.census.step (.fork u) = some ⟨⟨kernel, pid :: j.census.numbered.returned,
      j.census.numbered.calls + 1⟩, j.census.ended⟩ := by
    replace hf : j.census.numbered.kernel.fork u = some (pid, kernel) := hf
    simp only [Census.step, Numbered.step, hf, Option.map_some, Kernel.ended, List.append_nil]
  dsimp only at hs
  split_ifs at hs
  · obtain rfl := Option.some.inj hs
    exact ⟨hstep, rfl, Or.inl ⟨rfl, rfl⟩⟩
  · obtain rfl := Option.some.inj hs
    exact ⟨hstep, rfl, Or.inr ⟨pid, rfl, rfl, rfl⟩⟩

theorem waitpid_census (hs : j.waitpid = some j') :
    ∃ shell, j' = { j with shell := shell } := by
  rw [waitpid] at hs
  split at hs
  · cases hs
  · simp only [Option.bind_eq_bind] at hs
    obtain ⟨r, -, hs⟩ := Option.bind_eq_some_iff.mp hs
    obtain rfl := Option.some.inj hs
    split
    · exact ⟨.prompt, rfl⟩
    · exact ⟨j.shell, rfl⟩

/-! ### Invariants -/

variable {c c' : Census} {ev : Event}

/-- A pid that has been given out and is not on the ring does not come back. -/
theorem absent_of_step (h : Census.Kept image c L D) (hok : Census.Safe image c ev)
    (hs : c.step ev = some c') :
    (∀ q ∈ c.numbered.returned, q ∈ c'.numbered.returned) ∧
      ∀ q ∈ c.numbered.returned, (∀ a ∈ L, c.pidOf a ≠ q) →
        ∀ a ∈ c.numbered.kernel.ringAfter L ev, c'.pidOf a ≠ q := by
  obtain ⟨s, hstep, rfl⟩ := Option.map_eq_some_iff.mp hs
  obtain ⟨Γ, G, hI⟩ := h.inv
  obtain ⟨-, -, -, -, hadv⟩ := h.counted.step hI hok hstep
  refine ⟨hadv.returned, ?_⟩
  rintro q hq hnot a ha rfl
  rcases hadv.pids a ha with ⟨b, hb, hpid⟩ | hlt
  · exact hnot b hb hpid.symm
  · exact absurd (h.counted.returned _ hq).2 (not_le.mpr hlt)

/-- **The invariant of the jobs**, for the tasks `L` on the ring: of those that have been started in
the foreground only the one that is waited for can be there. -/
structure Held (image : Nat) (j : Jobs) (L D : List Nat) : Prop where
  kept : Census.Kept image j.census L D
  returned : ∀ p b, (p, b) ∈ j.started → p ∈ j.census.numbered.returned
  waiting : ∀ p b, j.shell = .waiting p b → (p, b) ∈ j.started
  gone : ∀ p, (p, false) ∈ j.started → j.shell ≠ .waiting p false → ∀ a ∈ L, j.census.pidOf a ≠ p

/-- **The invariant of the foreground**: what has been launched last is on the ring or has ended,
and `foregroundPid` is its pid. -/
structure Fronted (j : Jobs) (L D : List Nat) : Prop where
  foreground : j.kernel.foregroundPid = j.launched.elim 0 j.census.pidOf
  launched : ∀ x, j.launched = some x → x ∈ L ++ D ∧ 1 < j.census.pidOf x

/-- An event of the kernel keeps what the shell knows. -/
theorem Held.census (h : Held image j L D) (hok : Census.Safe image j.census ev)
    (hs : j.census.step ev = some c') (launched : Option Nat) :
    Held image { j with census := c', launched := launched } (j.kernel.ringAfter L ev)
      (j.kernel.queueAfter D ev) := by
  obtain ⟨hret, habs⟩ := absent_of_step h.kept hok hs
  exact ⟨h.kept.step hok hs, fun p b hp => hret p (h.returned p b hp), h.waiting,
    fun p hp hshell => habs p (h.returned p false hp) (h.gone p hp hshell)⟩

theorem alive_iff_ring (h : Census.Kept image j.census L D) :
    Alive j.kernel p ↔ ∃ a ∈ L, j.census.pidOf a = p := by
  obtain ⟨Γ, G, hI⟩ := h.inv
  exact alive_iff hI

open Classical in
/-- **A call of `waitpid`** by the shell. -/
theorem Held.waitpid_eq (h : Held image j L D) (hrun : j.kernel.running.pidT = 1) {b : Bool}
    (hshell : j.shell = .waiting p b) :
    j.waitpid =
      some (if b = true ∨ ¬ Alive j.kernel p then { j with shell := .prompt } else j) := by
  obtain ⟨Γ, G, hI⟩ := h.kept.inv
  obtain ⟨hlt, hle⟩ := h.kept.counted.returned p (h.returned p b (h.waiting p b hshell))
  have hne : j.kernel.running.pidT ≠ p := by
    rw [hrun]
    exact ne_of_lt hlt
  have hwait : j.kernel.waitpid (word p) =
      some (if Alive j.kernel p then (1, word p) else (0, 2 ^ 64 - 1)) :=
    h.kept.counted.waitpid hI hlt hle hne
  rw [waitpid, hshell]
  dsimp only
  rw [hwait]
  by_cases hal : Alive j.kernel p
  · rw [if_pos hal]
    cases b with
    | true => simp
    | false => simp [hal, wifexited]
  · rw [if_neg hal]
    simp [hal, wifexited]

theorem Held.waitpid (h : Held image j L D) (hrun : j.kernel.running.pidT = 1)
    (hs : j.waitpid = some j') : ∃ L' D', Held image j' L' D' := by
  cases hshell : j.shell with
  | prompt =>
    rw [Jobs.waitpid, hshell] at hs
    cases hs
  | waiting q b =>
    rw [h.waitpid_eq hrun hshell] at hs
    obtain rfl := Option.some.inj hs
    split
    · next hcase =>
      -- the prompt comes back
      refine ⟨L, D, h.kept, h.returned, ?_, ?_⟩
      · intro p b hp
        cases hp
      · intro p hp _
        by_cases hq : j.shell = .waiting p false
        · obtain ⟨rfl, rfl⟩ := Shell.waiting.inj (hshell.symm.trans hq)
          intro a ha hpid
          exact hcase.resolve_left Bool.false_ne_true
            ((alive_iff_ring h.kept).mpr ⟨a, ha, hpid⟩)
        · exact h.gone p hp hq
    · exact ⟨L, D, h⟩

theorem kept_cleared (h : Census.Kept image j.census L D) : Census.Kept image j.cleared L D := by
  obtain ⟨⟨Γ, G, hI⟩, hC, hqueue, hbound, hfresh, hgone⟩ := h
  exact ⟨⟨Γ, G, hI.setforegroundPid 0⟩, ⟨hC.count, hC.few, hC.state, hC.distinct, hC.bound,
    hC.fresh, hC.returned⟩, hqueue, hbound, hfresh, hgone⟩

/-- **One step** keeps the invariant of the jobs. -/
theorem Held.step (h : Held image j L D) (hok : Safe image j e) (hs : j.step e = some j') :
    ∃ L' D', Held image j' L' D' := by
  cases e with
  | kernel ev =>
    obtain ⟨c', hc, rfl⟩ := Option.map_eq_some_iff.mp hs
    exact ⟨_, _, h.census hok hc _⟩
  | command u background =>
    rw [Jobs.step] at hs
    split at hs
    · next hprompt =>
      obtain ⟨hstep, -, hcase⟩ := forkExecution_census hs
      have hheld := h.census hok.1 hstep j'.launched
      rcases hcase with ⟨hshell, hstarted⟩ | ⟨pid, hshell, hstarted, hret⟩
      · refine ⟨_, _, hheld.kept, ?_, ?_, ?_⟩
        · rw [hstarted]
          exact hheld.returned
        · rw [hshell, hstarted]
          exact hheld.waiting
        · rw [hshell, hstarted]
          exact hheld.gone
      · refine ⟨_, _, hheld.kept, ?_, ?_, ?_⟩
        · intro p b hp
          rw [hstarted] at hp
          rcases List.mem_cons.mp hp with hp | hp
          · obtain ⟨rfl, rfl⟩ := Prod.mk.inj hp
            rw [hret]
            exact List.mem_cons_self
          · exact hheld.returned p b hp
        · intro p b hp
          rw [hshell] at hp
          obtain ⟨rfl, rfl⟩ := Shell.waiting.inj hp
          rw [hstarted]
          exact List.mem_cons_self
        · intro p hp hne
          rw [hstarted] at hp
          rcases List.mem_cons.mp hp with hp | hp
          · obtain ⟨rfl, rfl⟩ := Prod.mk.inj hp
            exact absurd hshell hne
          · -- it had gone when the shell was at its prompt
            exact hheld.gone p hp (by rw [hprompt]; simp)
    · cases hs
  | wait => exact h.waitpid hok hs
  | ctrlC =>
    rw [Jobs.step, ctrlC] at hs
    split at hs
    · next hpid =>
      obtain ⟨c', hc, rfl⟩ := Option.map_eq_some_iff.mp hs
      have hheld : Held image { j with census := j.cleared } L D :=
        ⟨kept_cleared h.kept, h.returned, h.waiting, h.gone⟩
      exact ⟨_, _, hheld.census (hok hpid) hc none⟩
    · obtain rfl := Option.some.inj hs
      exact ⟨L, D, h.kept, h.returned, h.waiting, h.gone⟩

/-- An event of the kernel keeps the foreground, if only `exec` launches. -/
theorem Fronted.census (h : Fronted j L D) (hK : Census.Kept image j.census L D)
    (hok : Census.Safe image j.census ev) (hs : j.census.step ev = some c') :
    Fronted { j with census := c', launched := j.launchedAfter c' ev } (j.kernel.ringAfter L ev)
      (j.kernel.queueAfter D ev) := by
  obtain ⟨Γ, G, hI⟩ := hK.inv
  obtain ⟨s, hstep, rfl⟩ := Option.map_eq_some_iff.mp hs
  have hkernel := kernel_step hstep
  have haccess := hok.1.noAccess
  by_cases hexec : ∃ path found args envp, ev = .exec path found args envp
  · obtain ⟨path, found, args, envp, rfl⟩ := hexec
    have hx := hok.2.2 _ hkernel
    obtain ⟨hpid, hrun⟩ := hI.exec_foregroundPid hok.2.1 hkernel hx
    obtain ⟨-, hnew, -⟩ := hI.exec_ids hok.2.1 hkernel hx
    -- the shell does not call `exec`
    have hchild := hok.1.child path found args envp rfl
    have hbound := (hK.counted.bound _ hI.running_mem).1
    refine ⟨?_, ?_⟩
    · simp only [kernel, launchedAfter, Option.elim_some, pidOf, hrun]
      rw [hpid, hnew]
    · intro x hx
      obtain rfl := Option.some.inj hx
      simp only [pidOf, hrun]
      rw [hnew]
      refine ⟨List.mem_append_left _ List.mem_cons_self, lt_of_le_of_ne hbound (Ne.symm hchild)⟩
  · have hno : ∀ path found args envp, ev ≠ .exec path found args envp :=
      fun path found args envp hc => hexec ⟨path, found, args, envp, hc⟩
    have hsame := step_foregroundPid hkernel hno haccess
    have hpids := hI.step_pidT hok.2.1 hok.2.2 haccess hkernel
    have hlaunched : j.launchedAfter ⟨s, j.census.ended ++ j.census.numbered.kernel.ended ev⟩ ev =
        j.launched := by
      cases ev with
      | exec path found args envp => exact absurd rfl (hno path found args envp)
      | _ => rfl
    refine ⟨?_, ?_⟩
    · simp only [kernel, hlaunched]
      rw [hsame]
      refine h.foreground.trans ?_
      cases hl : j.launched with
      | none => rfl
      | some x => exact (hpids x (h.launched x hl).1).symm
    · intro x hx
      rw [hlaunched] at hx
      obtain ⟨hmem, hlt⟩ := h.launched x hx
      exact ⟨hI.stays hmem hno haccess, lt_of_lt_of_eq hlt (hpids x hmem).symm⟩

/-- **One step** keeps the foreground. -/
theorem Fronted.step (h : Fronted j L D) (hK : Census.Kept image j.census L D)
    (hok : Safe image j e) (hs : j.step e = some j') :
    ∃ L' D', Census.Kept image j'.census L' D' ∧ Fronted j' L' D' := by
  cases e with
  | kernel ev =>
    obtain ⟨c', hc, rfl⟩ := Option.map_eq_some_iff.mp hs
    exact ⟨_, _, hK.step hok hc, h.census hK hok hc⟩
  | command u background =>
    rw [Jobs.step] at hs
    split at hs
    · obtain ⟨hstep, hlaunched, -⟩ := forkExecution_census hs
      have hfront := h.census hK hok.1 hstep
      refine ⟨_, _, hK.step hok.1 hstep, hfront.foreground.trans ?_, ?_⟩
      · rw [hlaunched]
        rfl
      · intro x hx
        exact hfront.launched x (hlaunched.symm.trans hx)
    · cases hs
  | wait =>
    obtain ⟨shell, rfl⟩ := waitpid_census hs
    exact ⟨L, D, hK, h.foreground, h.launched⟩
  | ctrlC =>
    rw [Jobs.step, ctrlC] at hs
    split at hs
    · next hpid =>
      obtain ⟨c', hc, rfl⟩ := Option.map_eq_some_iff.mp hs
      refine ⟨_, _, (kept_cleared hK).step (hok hpid) hc, ?_, by simp⟩
      obtain ⟨s, hstep, rfl⟩ := Option.map_eq_some_iff.mp hc
      exact step_foregroundPid (kernel_step hstep) (by simp) (by simp)
    · next hpid =>
      obtain rfl := Option.some.inj hs
      exact ⟨L, D, hK, not_not.mp hpid, by simp⟩

/-! ### Runs -/

theorem held_of_run (h : ShellAlone image k) {es : List JobEvent}
    (hr : Run Jobs.step (Safe image) (start k) es j) : ∃ L D, Held image j L D := by
  refine hr.invariant (I := fun j => ∃ L D, Held image j L D) ?_ ?_
  · obtain ⟨L, D, hK⟩ := kept_of_run h (.nil _)
    exact ⟨L, D, hK, by simp [start], by simp [start], by simp [start]⟩
  · rintro j e j' ⟨L, D, hj⟩ hok hs
    exact hj.step hok hs

theorem fronted_of_run (h : ShellAlone image k) (h0 : k.foregroundPid = 0) {es : List JobEvent}
    (hr : Run Jobs.step (Safe image) (start k) es j) :
    ∃ L D, Census.Kept image j.census L D ∧ Fronted j L D := by
  refine hr.invariant (I := fun j => ∃ L D, Census.Kept image j.census L D ∧ Fronted j L D) ?_ ?_
  · obtain ⟨L, D, hK⟩ := kept_of_run h (.nil _)
    exact ⟨L, D, hK, h0, by simp [start]⟩
  · rintro j e j' ⟨L, D, hK, hj⟩ hok hs
    exact hj.step hK hok hs

open Classical in
/-- **Jobs.** In every run, in whatever order the processes, the shell and Ctrl-C take their steps:
a process that the shell has started in the foreground is there only while the shell waits for it.
So none is left at the prompt; and the shell is back there when it runs the next time after the
process has gone, not earlier, and behind a `&` at once. -/
theorem jobs_of_run (h : ShellAlone image k) {es : List JobEvent}
    (hr : Run Jobs.step (Safe image) (start k) es j) :
    (∀ p, (p, false) ∈ j.started → Alive j.kernel p → j.shell = .waiting p false) ∧
      ∀ p b, j.shell = .waiting p b → j.kernel.running.pidT = 1 →
        j.step .wait =
          some (if b = true ∨ ¬ Alive j.kernel p then { j with shell := .prompt } else j) := by
  obtain ⟨L, D, hj⟩ := held_of_run h hr
  refine ⟨?_, fun p b hshell hrun => hj.waitpid_eq hrun hshell⟩
  intro p hp hal
  obtain ⟨a, ha, hpid⟩ := (alive_iff_ring hj.kept).mp hal
  by_contra hne
  exact hj.gone p hp hne a ha hpid

theorem alone_setforegroundPid (h : ShellAlone image k) (pid : Int) :
    ShellAlone image (k.setforegroundPid pid) := by
  obtain ⟨⟨Γ, G, hI⟩, hpid, hstate, hcount⟩ := h
  exact ⟨⟨Γ, G, hI.setforegroundPid pid⟩, hpid, hstate, hcount⟩

/-- `fork` does not look at the foreground. -/
theorem fork_returns_setforegroundPid {pages : List (Vma × Nat)} {n : Nat}
    (h : Inv image Γ L D G k) (u : UserRegs) (pid : Int)
    (hvp : vmaPages k.running.mmap = some pages)
    (hq : ∀ q ∈ pages, q.1.vEnd = stackTop → k.phys.translate q.2 k.running.regs.cr3 ≠ none)
    (hx : k.phys.exhausted = false)
    (hn : n + 3 + 4 * pages.length + k.running.mmap.length ≤
      (freeFrames k.phys.availFrames).card) :
    ∃ p k', (k.setforegroundPid pid).fork u = some (p, k') ∧ k'.phys.exhausted = false := by
  obtain ⟨p, k', hf, hx', -⟩ := (h.setforegroundPid pid).fork_returns u hvp hq hx hn
  exact ⟨p, k', hf, hx'⟩

/-- A shell starts its first command, in the foreground. -/
theorem starts_of_fork (h : ShellAlone image k) {u : UserRegs} {p : Int}
    (hf : k.fork u = some (p, k')) (hx : k'.phys.exhausted = false) :
    ∃ j, Run Jobs.step (Safe image) (start k) [.command u false] j ∧ j.shell = .waiting p false ∧
      j.kernel = k' := by
  obtain ⟨Γ, G, hI⟩ := h.inv
  obtain ⟨-, -, -, -, hpid⟩ := hI.fork_ids hf hx
  rw [h.count, show intSucc 1 = 2 from by decide] at hpid
  have hstep : (start k).step (.command u false) = some
      ⟨⟨⟨k', [p], 1⟩, []⟩, .waiting p false, [(p, false)], none⟩ := by
    have hf' : (start k).kernel.fork u = some (p, k') := hf
    rw [Jobs.step, if_pos (show (start k).shell = .prompt from rfl), forkExecution, hf', hpid]
    rfl
  refine ⟨_, .cons ⟨⟨⟨by simp, by simp, ?_⟩, trivial, ?_⟩, h.pid⟩ hstep (.nil _), rfl, rfl⟩
  · simp [start, creations]
  · intro k'' hk
    have hk' : (k.fork u).map Prod.snd = some k'' := hk
    rw [hf] at hk'
    obtain rfl := Option.some.inj hk'
    exact hx

/-- The shell of the example starts a command. -/
theorem shell_starts : ∃ p k',
    ((shellAt [pageVma 0x400000] 0x400000).setforegroundPid 0).fork entryRegs = some (p, k') ∧
      k'.phys.exhausted = false := by
  have hm : UserPages [pageVma 0x400000] := userPages_pageVma (by decide)
  have hvp := vmaPages_pageVma (v := 0x400000) (by decide)
  obtain ⟨Γ, hI, -, -, -, hrun⟩ := shellAt_inv hm (show pml4Index 0x400000 < 511 by decide)
  have hmm : (shellAt [pageVma 0x400000] 0x400000).running.mmap = [pageVma 0x400000] := by
    rw [hrun]
    rfl
  have hroom : 45 ≤ (freeFrames (shellAt [pageVma 0x400000] 0x400000).phys.availFrames).card :=
    shellAt_alive.2
  refine fork_returns_setforegroundPid (n := 0) hI entryRegs 0 (by rw [hmm, hvp]) ?_
    shellAt_alive.1 (by rw [hmm]; simp; omega)
  intro q hq hend
  obtain rfl := List.mem_singleton.mp hq
  simp [pageVma, stackTop] at hend

/-- While the first command is there, the shell waits for it. -/
theorem jobs_of_run_command : ∃ j p, Run Jobs.step (Safe 0x1000)
    (start ((shellAt [pageVma 0x400000] 0x400000).setforegroundPid 0))
      [.command entryRegs false] j ∧
    (∀ q, (q, false) ∈ j.started → Alive j.kernel q → j.shell = .waiting q false) ∧
    j.shell = .waiting p false := by
  obtain ⟨p, k', hf, hx⟩ := shell_starts
  have halone := alone_setforegroundPid shellAlone_shellAt 0
  obtain ⟨j, hr, hshell, -⟩ := starts_of_fork halone hf hx
  exact ⟨j, p, hr, (jobs_of_run halone hr).1, hshell⟩

/-- The task that `exitpid` finds. -/
theorem exited_iff (h : Census.Kept image c L D) (hp : p ≠ 1) {x : Nat} :
    c.numbered.kernel.exited p = some x ↔ x ∈ L ∧ c.pidOf x = p := by
  obtain ⟨Γ, G, hI⟩ := h.inv
  obtain ⟨M, rfl⟩ := hI.ring.exists_tail
  have hmem : ∀ a, a ∈ M ++ [c.numbered.kernel.runningThread] ↔
      a ∈ c.numbered.kernel.runningThread :: M := by
    intro a
    simp [or_comm]
  rw [Kernel.exited, if_neg hp, hI.others_eq]
  constructor
  · intro hf
    have heq := List.find?_some hf
    exact ⟨(hmem x).mp (List.mem_of_find?_eq_some hf), beq_iff_eq.mp heq⟩
  · rintro ⟨hx, hpid⟩
    cases hf : (M ++ [c.numbered.kernel.runningThread]).find? fun a =>
        (c.numbered.kernel.phys.tasks a).pidT == p with
    | none =>
      have hnone := List.find?_eq_none.mp hf x ((hmem x).mpr hx)
      exact absurd (beq_iff_eq.mpr hpid) hnone
    | some y =>
      -- pids are distinct
      have hy := (hmem y).mp (List.mem_of_find?_eq_some hf)
      have heq := List.find?_some hf
      have hpidy : c.pidOf y = p := beq_iff_eq.mp heq
      rw [h.counted.distinct y hy x hx (hpidy.trans hpid.symm)]

/-- `exitpid` without such a task. -/
theorem exitpid_of_none (hI : Inv image Γ L D G k) (hnone : k.exited p = none) :
    k.exitpid p = some k := by
  rw [Kernel.exitpid]
  by_cases hp : p = 1
  · rw [if_pos hp]
  · obtain ⟨x, -, hfind, hexited⟩ := hI.exitpid_find hp
    have hne : (k.phys.tasks x).pidT ≠ p := by
      intro hc
      rw [hexited, if_pos hc] at hnone
      cases hnone
    rw [if_neg hp, hfind, Option.bind_eq_bind, Option.bind_some, if_pos hne]

/-- **Ctrl-C**, in every such run: it takes the record off the ring that the last `exec` since the
last Ctrl-C has put there, if it is still there; otherwise it only clears `foregroundPid`. -/
theorem ctrlC_of_run (h : ShellAlone image k) (h0 : k.foregroundPid = 0) {es : List JobEvent}
    (hr : Run Jobs.step (Safe image) (start k) es j) (hok : Safe image j .ctrlC)
    (hs : j.step .ctrlC = some j') :
    (∀ a, j'.kernel.OnRing a ↔ j.kernel.OnRing a ∧ j.launched ≠ some a) ∧
      ((∀ a, j.launched = some a → ¬ j.kernel.OnRing a) →
        j'.kernel = j.kernel.setforegroundPid 0) := by
  obtain ⟨L, D, hK, hfront⟩ := fronted_of_run h h0 hr
  obtain ⟨Γ, G, hI⟩ := hK.inv
  have hring : ∀ a, j.kernel.OnRing a ↔ a ∈ L := fun a => hI.onRing_iff
  rw [Jobs.step, ctrlC] at hs
  cases hl : j.launched with
  | none =>
    -- nothing has been launched
    have hzero : j.kernel.foregroundPid = 0 := by
      rw [hfront.foreground, hl]
      rfl
    rw [if_neg (not_not.mpr hzero)] at hs
    obtain rfl := Option.some.inj hs
    refine ⟨fun a => by simp [kernel], fun _ => ?_⟩
    rw [← hzero]
    rfl
  | some x =>
    obtain ⟨hmem, hlt⟩ := hfront.launched x hl
    have hpid : j.kernel.foregroundPid = j.census.pidOf x := by
      rw [hfront.foreground, hl]
      rfl
    have hne : j.kernel.foregroundPid ≠ 0 := by omega
    have hone : j.kernel.foregroundPid ≠ 1 := by omega
    rw [if_pos hne] at hs
    obtain ⟨c', hc, rfl⟩ := Option.map_eq_some_iff.mp hs
    have hcleared := kept_cleared hK
    obtain ⟨Γ₀, G₀, hI₀⟩ := hcleared.inv
    obtain ⟨s, hstep, rfl⟩ := Option.map_eq_some_iff.mp hc
    have hkernel := kernel_step hstep
    obtain ⟨Γ', G', hI'⟩ := (hcleared.step (hok hne) hc).inv
    have hring' : ∀ a, s.kernel.OnRing a ↔ a ∈ j.cleared.numbered.kernel.ringAfter L
        (.exitpid j.kernel.foregroundPid) := fun a => hI'.onRing_iff
    by_cases hx : x ∈ L
    · -- it is still there
      have hfound := (exited_iff hcleared hone).mpr ⟨hx, hpid.symm⟩
      rw [Kernel.ringAfter, hfound, Option.elim_some] at hring'
      refine ⟨fun a => ?_, fun hno => absurd ((hring x).mpr hx) (hno x rfl)⟩
      refine (hring' a).trans ?_
      rw [mem_ringWithout hI.ring.nodup hx, hring a, ne_eq, ne_eq, Option.some.injEq, eq_comm]
    · -- it has ended, and nobody has got its pid
      have hended : j.census.pidOf x ∈ j.census.ended := by
        rw [← hK.queue]
        exact List.mem_map_of_mem ((List.mem_append.mp hmem).resolve_left hx)
      have hnone : j.cleared.numbered.kernel.exited j.kernel.foregroundPid = none := by
        cases hfound : j.cleared.numbered.kernel.exited j.kernel.foregroundPid with
        | none => rfl
        | some y =>
          obtain ⟨hy, hpidy⟩ := (exited_iff hcleared hone).mp hfound
          exact absurd (hpidy.trans hpid) (hK.gone _ hended y hy)
      have hsame : s.kernel = j.kernel.setforegroundPid 0 :=
        Option.some.inj (hkernel.symm.trans (exitpid_of_none hI₀ hnone))
      refine ⟨fun a => ?_, fun _ => hsame⟩
      rw [Kernel.ringAfter, hnone, Option.elim_none] at hring'
      refine (hring' a).trans ((hring a).symm.trans (and_iff_left_of_imp ?_).symm)
      rintro ha hc
      obtain rfl := Option.some.inj hc
      exact hx ((hring _).mp ha)

/-- Behind a `fork`, and in front of the `exec`, Ctrl-C does nothing. -/
theorem ctrlC_of_run_command : ∃ j j', Run Jobs.step (Safe 0x1000)
    (start ((shellAt [pageVma 0x400000] 0x400000).setforegroundPid 0))
      [.command entryRegs false] j ∧
    j.step .ctrlC = some j' ∧
    ∀ a, j'.kernel.OnRing a ↔ j.kernel.OnRing a ∧ j.launched ≠ some a := by
  obtain ⟨p, k', hf, hx⟩ := shell_starts
  have halone := alone_setforegroundPid shellAlone_shellAt 0
  obtain ⟨j, hr, -, rfl⟩ := starts_of_fork halone hf hx
  have hzero : j.kernel.foregroundPid = 0 := fork_foregroundPid hf
  have hs : j.step .ctrlC = some { j with launched := none } := by
    rw [Jobs.step, Jobs.ctrlC, if_neg (not_not.mpr hzero)]
  exact ⟨j, _, hr, hs, (ctrlC_of_run halone rfl hr (fun hc => absurd hzero hc) hs).1⟩

end Jobs

end Sbunix
