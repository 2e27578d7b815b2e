import Sbunix.KernelClock
import Sbunix.Pids
import Sbunix.StatusLine

/-!
# Listing and killing processes

`ps` of `sys/task.c` prints the run ring and the delete queue, and `bin/kill` hands the number that
is typed behind it to `kill`.

* `listed_of_run` — in every run `ps` comes to an end, with one line for each process that is alive,
  the running one first, and behind them one for each that is not;
* `KillProgram.toInteger_decimal` — the number that `ps` prints is read back by `kill`;
* `kills_listed_of_run` — which ends the process of that line and no other, unless it is the shell,
  or `kill` itself.
-/

namespace Sbunix

open ByteMem Chain Runs

/-! ### The code -/

/-- What `ps` prints of a record and nothing else reads. -/
structure Times where
  startHH : Int
  startMM : Int
  startSS : Int
  endHH : Int
  endMM : Int
  endSS : Int

/-- A call of `kprintf` in `ps`: the format, and the arguments that it takes. -/
structure PsLine where
  format : List UInt8
  args : List Directive

def PsLine.header : PsLine := ⟨text "PID START_TIME END_TIME STATE      BINARY\n", []⟩

/-- The line of the task at `a`. -/
def Kernel.psLine (k : Kernel) (times : Nat → Times) (format state : String) (a : Nat) : PsLine :=
  ⟨text format, [.int (k.phys.tasks a).pidT, .int (times a).startHH, .int (times a).startMM,
    .int (times a).startSS, .int (times a).endHH, .int (times a).endMM, .int (times a).endSS,
    .string (text state), .string (k.phys.tasks a).exeName]⟩

def Kernel.callerLine (k : Kernel) (times : Nat → Times) : PsLine :=
  k.psLine times "%d  %d:%d:%d   %d:%d:%d %s         %s\n" "RUNNING" k.runningThread

def Kernel.runningLine (k : Kernel) (times : Nat → Times) : Nat → PsLine :=
  k.psLine times "%d    %d:%d:%d    %d:%d:%d    %s      %s\n" "RUNNING"

def Kernel.exitedLine (k : Kernel) (times : Nat → Times) : Nat → PsLine :=
  k.psLine times "%d    %d:%d:%d    %d:%d:%d    %s      %s\n" "EXITED"

/-- `ps`. -/
def Kernel.ps (k : Kernel) (times : Nat → Times) : Option (List PsLine) := do
  let running ← collect k.phys.next (· == k.runningThread) walkFuel (k.phys.next k.runningThread)
  let exited ← collect k.phys.next (· == 0) walkFuel k.deleteQueue
  return [.header, k.callerLine times] ++ running.map (k.runningLine times) ++
    exited.map (k.exitedLine times)

/-- `toInteger` of `bin/kill`, of the string `s`. The digits are not looked at. -/
def KillProgram.toInteger (s : List UInt8) : Nat :=
  s.foldl (fun num c => (num * 10 + ((charOf c.toNat - 0x30) % 2 ^ 64).toNat) % 2 ^ 64) 0

/-- The argument of the system call that `main` of `bin/kill` makes. -/
def KillProgram.main : List (List UInt8) → Option Nat
  | [_, pid] => some (toInteger pid)
  | _ :: _ :: pid :: _ => some (toInteger pid)
  | _ => none

/-! ### The numbers -/

namespace KillProgram

variable {n : Nat}

/-- The value of a character that is a digit. -/
theorem digit_value : ∀ d < 10,
    ((charOf (upperDigit d).toNat - 0x30) % 2 ^ 64).toNat = d := by decide

theorem foldl_mod {α : Type} (f : α → Nat) (l : List α) : ∀ a : Nat,
    l.foldl (fun num c => (num * 10 + f c) % 2 ^ 64) (a % 2 ^ 64) =
      l.foldl (fun num c => num * 10 + f c) a % 2 ^ 64 := by
  induction l with
  | nil => exact fun _ => rfl
  | cons c l ih =>
    intro a
    rw [List.foldl_cons, List.foldl_cons, ← ih]
    congr 1
    omega

/-- Reading a numeral, most significant digit first. -/
theorem foldl_digits (l : List Nat) :
    l.reverse.foldl (fun num d => num * 10 + d) 0 = Nat.ofDigits 10 l := by
  rw [List.foldl_reverse]
  induction l with
  | nil => rfl
  | cons d l ih => rw [List.foldr_cons, ih, Nat.ofDigits_cons, Nat.add_comm, Nat.mul_comm]

/-- **The numeral is read back.** -/
theorem toInteger_numeral (hn : n < 2 ^ 64) : toInteger (numeral 10 n) = n := by
  by_cases h0 : n = 0
  · subst h0
    decide
  · have hfold : ∀ l : List Nat, (∀ d ∈ l, d < 10) → ∀ a : Nat,
        (l.map upperDigit).foldl
          (fun num c => num * 10 + ((charOf c.toNat - 0x30) % 2 ^ 64).toNat) a =
        l.foldl (fun num d => num * 10 + d) a := by
      intro l hl
      induction l with
      | nil => exact fun _ => rfl
      | cons d l ih =>
        intro a
        rw [List.map_cons, List.foldl_cons, List.foldl_cons,
          digit_value d (hl d List.mem_cons_self)]
        exact ih (fun d hd => hl d (List.mem_cons_of_mem _ hd)) _
    have hmod := foldl_mod (fun c : UInt8 => ((charOf c.toNat - 0x30) % 2 ^ 64).toNat)
      (numeral 10 n) 0
    have hdigits : ∀ d ∈ (Nat.digits 10 n).reverse, d < 10 := fun d hd =>
      Nat.digits_lt_base (by decide) (List.mem_reverse.mp hd)
    rw [toInteger]
    refine hmod.trans ?_
    rw [numeral, if_neg h0, hfold _ hdigits, foldl_digits, Nat.ofDigits_digits,
      Nat.mod_eq_of_lt hn]

/-- **The number that `ps` prints** is the argument that `kill` is called with. -/
theorem toInteger_decimal {p : Int} (h0 : 0 ≤ p) (hp : p < 2 ^ 63) :
    toInteger (decimal p) = Numbered.word p := by
  obtain ⟨m, rfl⟩ := Int.eq_ofNat_of_zero_le h0
  rw [decimal, if_neg (by omega), toInteger_numeral (by omega), Numbered.word]
  omega

end KillProgram

/-! ### The queue of the dead -/

variable {image : Nat} {Γ : Nat → Use} {L D G : List Nat} {k k' : Kernel} {x : Nat}

/-- **The delete queue after a step.** -/
def Kernel.queueAfter (k : Kernel) (D : List Nat) : Event → List Nat
  | .exit => if k.running.pidT = 1 then D else D ++ [k.runningThread]
  | .kill pid => (k.killed pid).elim D fun x => D ++ [x]
  | .exitpid pid => (k.exited pid).elim D fun x => D ++ [x]
  | _ => D

/-- The pids of the tasks that a step ends. -/
def Kernel.ended (k : Kernel) : Event → List Int
  | .exit => if k.running.pidT = 1 then [] else [k.running.pidT]
  | .kill pid => (k.killed pid).elim [] fun x => [(k.phys.tasks x).pidT]
  | .exitpid pid => (k.exited pid).elim [] fun x => [(k.phys.tasks x).pidT]
  | _ => []

theorem Inv.step_queue (h : Inv image Γ L D G k) {e : Event} (hok : k.Sound image e)
    (hen : k.Enough e) (haccess : ∀ v w, e ≠ .access v w) (hs : k.step e = some k') :
    ∃ Γ' G', Inv image Γ' (k.ringAfter L e) (k.queueAfter D e) G' k' := by
  have hx := hen k' hs
  obtain ⟨M, rfl⟩ := h.ring.exists_tail
  cases e with
  | fork u =>
    obtain ⟨⟨pid, k''⟩, hf, rfl⟩ := Option.map_eq_some_iff.mp hs
    exact h.fork hf hx
  | exec path found args envp =>
    obtain ⟨Γ', G', hI⟩ := h.exec hok hs hx
    refine ⟨Γ', G', ?_⟩
    simp only [Kernel.ringAfter, Kernel.queueAfter, List.tail_cons]
    by_cases hM : M = []
    · simpa [hM] using hI
    · simpa [hM] using hI
  | exit =>
    obtain ⟨Γ', G', hI, -⟩ := h.exit hok hs
    exact ⟨Γ', G', hI⟩
  | kill pid =>
    obtain ⟨Γ', G', hI, -⟩ := h.kill hok hs
    exact ⟨Γ', G', hI⟩
  | exitpid pid =>
    obtain ⟨Γ', G', hI, -⟩ := h.exitpid hok hs
    exact ⟨Γ', G', hI⟩
  | timer r => exact ⟨Γ, G, (h.runNextTask hs).1⟩
  | access v w => exact absurd rfl (haccess v w)

theorem quiet_pidT : Quiet Task.pidT := ⟨fun _ _ => rfl, fun _ _ => rfl, fun _ => rfl⟩

theorem Inv.terminate_pidT (h : Inv image Γ L D G k) (hx : x ∈ L) (hs : k.terminate x = some k') :
    ∀ a ∈ L ++ D, (k'.phys.tasks a).pidT = (k.phys.tasks a).pidT := by
  intro a ha
  rw [h.terminate_records quiet_pidT.unlinked hx hs a ha]
  exact @Phys.sameIn_setTask _ Task.pidT k.phys x { k.phys.tasks x with state := 0 } rfl a

/-- A record keeps its pid, on the ring and in the queue. -/
theorem Inv.step_pidT (h : Inv image Γ L D G k) {e : Event} (hok : k.Sound image e)
    (hen : k.Enough e) (haccess : ∀ v w, e ≠ .access v w) (hs : k.step e = some k') :
    ∀ a ∈ L ++ D, (k'.phys.tasks a).pidT = (k.phys.tasks a).pidT := by
  cases e with
  | fork u =>
    obtain ⟨⟨pid, k''⟩, hf, rfl⟩ := Option.map_eq_some_iff.mp hs
    exact (h.fork_records quiet_pidT.unlinked hf (hen _ hs)).1
  | exec path found args envp => exact (h.exec_records quiet_pidT.unlinked hok hs (hen _ hs)).1
  | exit =>
    replace hs : k.exit = some k' := hs
    unfold Kernel.exit at hs
    split at hs
    · obtain rfl := Option.some.inj hs
      exact fun _ _ => rfl
    · exact h.terminate_pidT h.running_mem hs
  | kill pid => exact h.kill_keeps quiet_pidT.unlinked hs
  | exitpid pid =>
    replace hs : k.exitpid pid = some k' := hs
    unfold Kernel.exitpid at hs
    split at hs
    · obtain rfl := Option.some.inj hs
      exact fun _ _ => rfl
    · next hpid =>
      obtain ⟨y, hy, hfind, -⟩ := h.exitpid_find hpid
      rw [hfind, Option.bind_eq_bind, Option.bind_some] at hs
      split at hs
      · obtain rfl := Option.some.inj hs
        exact fun _ _ => rfl
      · exact h.terminate_pidT hy hs
  | timer r => exact fun a _ => quiet_pidT.runNextTask hs a
  | access v w => exact absurd rfl (haccess v w)

/-- A step queues one task at most. -/
theorem Inv.queue_cases (h : Inv image Γ L D G k) (e : Event) :
    (k.queueAfter D e = D ∧ k.ended e = []) ∨
      ∃ x ∈ L, k.queueAfter D e = D ++ [x] ∧ k.ended e = [(k.phys.tasks x).pidT] ∧
        (∀ u, e ≠ .fork u) ∧ ∀ path found args envp, e ≠ .exec path found args envp := by
  cases e with
  | exit =>
    rw [Kernel.queueAfter, Kernel.ended]
    split
    · exact Or.inl ⟨rfl, rfl⟩
    · exact Or.inr ⟨_, h.running_mem, rfl, rfl, by simp, by simp⟩
  | kill pid =>
    rw [Kernel.queueAfter, Kernel.ended]
    cases hk : k.killed pid with
    | none => exact Or.inl ⟨rfl, rfl⟩
    | some y => exact Or.inr ⟨y, (h.killed_mem hk).1, rfl, rfl, by simp, by simp⟩
  | exitpid pid =>
    rw [Kernel.queueAfter, Kernel.ended]
    cases hk : k.exited pid with
    | none => exact Or.inl ⟨rfl, rfl⟩
    | some y => exact Or.inr ⟨y, (h.exited_mem hk).1, rfl, rfl, by simp, by simp⟩
  | fork u => exact Or.inl ⟨rfl, rfl⟩
  | exec path found args envp => exact Or.inl ⟨rfl, rfl⟩
  | timer r => exact Or.inl ⟨rfl, rfl⟩
  | access v w => exact Or.inl ⟨rfl, rfl⟩

/-- The two walks of `ps` come to an end. -/
theorem Inv.ps_eq (h : Inv image Γ (k.runningThread :: L) D G k) (times : Nat → Times) :
    k.ps times = some ([.header, k.callerLine times] ++ L.map (k.runningLine times) ++
      D.map (k.exitedLine times)) := by
  have hlen := h.length_lt
  rw [List.length_append, List.length_cons] at hlen
  have hnot := (List.nodup_cons.mp h.ring.nodup).1
  have hring := collect_of_seg (q := (· == k.runningThread)) (n := walkFuel) h.ring.seg.2
    (fun y hy => beq_false_of_ne fun hc => hnot (hc ▸ hy)) (beq_self_eq_true _) (by omega)
  have hqueue := collect_of_seg (q := (· == 0)) (n := walkFuel) h.queue (fun y hy => ?_) rfl
    (by omega)
  · rw [Kernel.ps, hring, hqueue]
    rfl
  · -- records are above `kernbase`
    obtain ⟨n, -, rfl⟩ := h.node (List.mem_append_right _ hy)
    refine beq_false_of_ne fun hc => ?_
    rw [kernbase] at hc
    omega

/-! ### Runs -/

/-- The kernel, and the pids of the processes that have ended, in order. -/
structure Census where
  numbered : Numbered
  ended : List Int

namespace Census

open Numbered

def step (c : Census) (e : Event) : Option Census :=
  (c.numbered.step e).map fun s => ⟨s, c.ended ++ c.numbered.kernel.ended e⟩

/-- The step stays clear of the defects. -/
def Safe (image : Nat) (c : Census) : Event → Prop := Numbered.Safe image c.numbered

/-- The pid of a record. -/
def pidOf (c : Census) (a : Nat) : Int := (c.numbered.kernel.phys.tasks a).pidT

/-- **The invariant of the census**: who has ended is in the queue, and nobody else has its pid. -/
structure Kept (image : Nat) (c : Census) (L D : List Nat) : Prop where
  inv : ∃ Γ G, Inv image Γ L D G c.numbered.kernel
  counted : Counted c.numbered L
  queue : D.map c.pidOf = c.ended
  bound : ∀ p ∈ c.ended, p ≤ c.numbered.kernel.pidCount
  fresh : c.ended.Nodup
  gone : ∀ p ∈ c.ended, ∀ a ∈ L, c.pidOf a ≠ p

variable {c c' : Census} {e : Event} {p q : Int}

/-- A step of the numbered kernel is a step of the kernel. -/
theorem kernel_step {s s' : Numbered} (hs : s.step e = some s') :
    s.kernel.step e = some s'.kernel := by
  cases e with
  | fork u =>
    obtain ⟨⟨pid, k'⟩, hf, rfl⟩ := Option.map_eq_some_iff.mp hs
    rw [Kernel.step, hf]
    rfl
  | exec path found args envp =>
    obtain ⟨k', hf, rfl⟩ := Option.map_eq_some_iff.mp hs
    exact hf
  | exit =>
    obtain ⟨k', hf, rfl⟩ := Option.map_eq_some_iff.mp hs
    exact hf
  | kill pid =>
    obtain ⟨k', hf, rfl⟩ := Option.map_eq_some_iff.mp hs
    exact hf
  | exitpid pid =>
    obtain ⟨k', hf, rfl⟩ := Option.map_eq_some_iff.mp hs
    exact hf
  | timer r =>
    obtain ⟨k', hf, rfl⟩ := Option.map_eq_some_iff.mp hs
    exact hf
  | access v w =>
    obtain ⟨k', hf, rfl⟩ := Option.map_eq_some_iff.mp hs
    exact hf

/-- **One step.** -/
theorem Kept.step (h : Kept image c L D) (hok : Safe image c e) (hs : c.step e = some c') :
    Kept image c' (c.numbered.kernel.ringAfter L e) (c.numbered.kernel.queueAfter D e) := by
  obtain ⟨⟨Γ, G, hI⟩, hC, hqueue, hbound, hfresh, hgone⟩ := h
  obtain ⟨s, hstep, rfl⟩ := Option.map_eq_some_iff.mp hs
  obtain ⟨Γ₁, D₁, G₁, -, hadv⟩ := hC.step hI hok hstep
  have hkernel := kernel_step hstep
  have haccess := hok.1.noAccess
  obtain ⟨Γ', G', hI'⟩ := hI.step_queue hok.2.1 hok.2.2 haccess hkernel
  have hsame := hI.step_pidT hok.2.1 hok.2.2 haccess hkernel
  have hD : D.map (fun a => (s.kernel.phys.tasks a).pidT) = c.ended := by
    rw [← hqueue]
    exact List.map_congr_left fun a ha => hsame a (List.mem_append_right L ha)
  -- nobody gets an old pid
  have hold : ∀ p ∈ c.ended, ∀ a ∈ c.numbered.kernel.ringAfter L e,
      (s.kernel.phys.tasks a).pidT ≠ p := by
    rintro p hp a ha rfl
    rcases hadv.pids a ha with ⟨b, hb, hpb⟩ | hlt
    · exact hgone _ hp b hb hpb.symm
    · exact absurd (hbound _ hp) (not_le.mpr hlt)
  rcases hI.queue_cases e with ⟨hqa, hended⟩ | ⟨x, hx, hqa, hended, hfork, hexec⟩
  · rw [hqa] at hI' ⊢
    simp only [hended, List.append_nil]
    exact ⟨⟨Γ', G', hI'⟩, hadv.counted, hD, fun p hp => (hbound p hp).trans hadv.le, hfresh, hold⟩
  · -- the task that has ended
    have hnew : (c.numbered.kernel.phys.tasks x).pidT ∉ c.ended := fun hp => hgone _ hp x hx rfl
    obtain ⟨hids, -⟩ := hI.other_ids hkernel hfork hexec haccess
    rw [hqa] at hI' ⊢
    simp only [hended]
    refine ⟨⟨Γ', G', hI'⟩, hadv.counted, ?_, ?_, ?_, ?_⟩
    · rw [List.map_append]
      exact congrArg₂ (· ++ ·) hD (congrArg (fun p => [p]) (hsame x (List.mem_append_left D hx)))
    · intro p hp
      rcases List.mem_append.mp hp with hp | hp
      · exact (hbound p hp).trans hadv.le
      · rw [List.mem_singleton.mp hp]
        exact (hC.bound x hx).2.trans hadv.le
    · exact List.nodup_append.mpr ⟨hfresh, List.nodup_singleton _, fun p hp q hq hpq =>
        hnew (by rwa [← List.mem_singleton.mp hq, ← hpq])⟩
    · intro p hp a ha
      rcases List.mem_append.mp hp with hp | hp
      · exact hold p hp a ha
      · obtain ⟨haL, hpid, -⟩ := hids a ha
        rw [List.mem_singleton.mp hp]
        intro hc
        obtain rfl := hC.distinct a haL x hx (hpid.symm.trans hc)
        exact (List.nodup_append.mp hI'.nodup).2.2 a ha a
          (List.mem_append_right D (List.mem_singleton_self a)) rfl

theorem kept_of_run {k : Kernel} (h : ShellAlone image k) {es : List Event}
    (hr : Run Census.step (Safe image) ⟨⟨k, [], 0⟩, []⟩ es c) : ∃ L D, Kept image c L D := by
  refine hr.invariant (I := fun c => ∃ L D, Kept image c L D) ?_
    fun t e t' ⟨L, D, hK⟩ hok hs => ⟨_, _, hK.step hok hs⟩
  obtain ⟨⟨Γ, G, hI⟩, hpid, hstate, hcount⟩ := h
  have hrec : ∀ a ∈ [k.runningThread], k.phys.tasks a = k.running := by
    intro a ha
    rw [List.mem_singleton.mp ha]
    rfl
  refine ⟨[k.runningThread], [], ⟨Γ, G, hI⟩, ?_, rfl, by simp, List.nodup_nil, by simp⟩
  refine ⟨hcount, Nat.zero_le _, ?_, ?_, ?_, List.nodup_nil, by simp⟩
  · intro a ha
    rw [hrec a ha, hstate]
  · intro a ha b hb _
    rw [List.mem_singleton.mp ha, List.mem_singleton.mp hb]
  · intro a ha
    simp only
    rw [hrec a ha, hpid, hcount]
    exact ⟨le_refl _, le_refl _⟩

/-- **What `ps` prints**, in every run: it comes to an end; the lines of running processes are those
of the tasks on the ring, the caller's first, and the others are those of the processes that have
ended, in this order. No pid is printed twice. -/
theorem listed_of_run {k : Kernel} (h : ShellAlone image k) {es : List Event}
    (hr : Run Census.step (Safe image) ⟨⟨k, [], 0⟩, []⟩ es c) (times : Nat → Times) :
    ∃ others dead, c.numbered.kernel.ps times =
        some ([.header, c.numbered.kernel.callerLine times] ++
          others.map (c.numbered.kernel.runningLine times) ++
          dead.map (c.numbered.kernel.exitedLine times)) ∧
      (∀ a, c.numbered.kernel.OnRing a ↔ a ∈ c.numbered.kernel.runningThread :: others) ∧
      dead.map c.pidOf = c.ended ∧
      (((c.numbered.kernel.runningThread :: others) ++ dead).map c.pidOf).Nodup := by
  obtain ⟨L, D, ⟨Γ, G, hI⟩, hC, hqueue, -, hfresh, hgone⟩ := kept_of_run h hr
  obtain ⟨M, rfl⟩ := hI.ring.exists_tail
  refine ⟨M, D, hI.ps_eq times, fun a => hI.onRing_iff, hqueue, ?_⟩
  rw [List.map_append, hqueue]
  refine List.nodup_append.mpr ⟨?_, hfresh, ?_⟩
  · exact List.Nodup.map_on (fun a ha b hb hab => hC.distinct a ha b hb hab) hI.ring.nodup
  · intro p hp q hq hpq
    obtain ⟨a, ha, rfl⟩ := List.mem_map.mp hp
    exact hgone q hq a ha hpq

/-- The shell has forked once. -/
theorem census_of_fork : ∃ s, Run Census.step (Safe 0x1000)
    ⟨⟨shellAt [pageVma 0x400000] 0x400000, [], 0⟩, []⟩ [.fork entryRegs] s := by
  have hm : UserPages [pageVma 0x400000] := userPages_pageVma (by decide)
  obtain ⟨pid, k₁, hs₁, hx₁⟩ := shell_fork hm (vmaPages_pageVma (v := 0x400000) (by decide))
    (by simp [pageVma, stackTop]) (by simp)
  refine ⟨⟨⟨k₁, [pid], 1⟩, []⟩, .cons ⟨⟨by simp, by simp, by simp only [creations]; omega⟩, trivial,
    fun k' hk' => ?_⟩ ?_ (.nil _)⟩
  · simp only [Kernel.step, hs₁, Option.map_some] at hk'
    exact Option.some.inj hk' ▸ hx₁
  · simp only [Census.step, Numbered.step, hs₁, Option.map_some, Kernel.ended, Nat.zero_add,
      List.append_nil]

theorem shellAlone_shellAt : ShellAlone 0x1000 (shellAt [pageVma 0x400000] 0x400000) := by
  have hm : UserPages [pageVma 0x400000] := userPages_pageVma (by decide)
  obtain ⟨Γ, hI, -, -, -, hrun⟩ := shellAt_inv hm (show pml4Index 0x400000 < 511 by decide)
  exact ⟨⟨Γ, _, hI⟩, by rw [hrun]; rfl, by rw [hrun]; rfl, rfl⟩

/-- The list with the child of the shell. -/
theorem listed_of_run_fork : ∃ (c : Census) (others dead : List Nat),
    Run Census.step (Safe 0x1000) ⟨⟨shellAt [pageVma 0x400000] 0x400000, [], 0⟩, []⟩
      [.fork entryRegs] c ∧
    c.numbered.kernel.ps (fun _ => ⟨0, 0, 0, 0, 0, 0⟩) =
      some ([.header, c.numbered.kernel.callerLine fun _ => ⟨0, 0, 0, 0, 0, 0⟩] ++
        others.map (c.numbered.kernel.runningLine fun _ => ⟨0, 0, 0, 0, 0, 0⟩) ++
        dead.map (c.numbered.kernel.exitedLine fun _ => ⟨0, 0, 0, 0, 0, 0⟩)) := by
  obtain ⟨c, hr⟩ := census_of_fork
  obtain ⟨others, dead, hps, -⟩ := listed_of_run shellAlone_shellAt hr _
  exact ⟨c, others, dead, hr, hps⟩

/-- **The task that `kill` finds**: the one with this pid, unless it is the shell or the caller. -/
theorem Kept.killed_iff (h : Kept image c L D) (h0 : 0 ≤ p) (hp : p < 2 ^ 63) {x : Nat} :
    c.numbered.kernel.killed (word p) = some x ↔
      x ∈ L ∧ c.pidOf x = p ∧ p ≠ 1 ∧ x ≠ c.numbered.kernel.runningThread := by
  obtain ⟨⟨Γ, G, hI⟩, hC, -⟩ := h
  obtain ⟨M, rfl⟩ := hI.ring.exists_tail
  -- the pids on the ring are small
  have hword : ∀ a ∈ c.numbered.kernel.runningThread :: M,
      (c.numbered.kernel.pidWord a = word p ↔ c.pidOf a = p) := by
    intro a ha
    have hb := hC.bound a ha
    have hcount := hC.count
    have hfew := hC.few
    rw [Kernel.pidWord, word, pidOf]
    omega
  have hone : word p = 1 ↔ p = 1 := by
    rw [word]
    omega
  have hnot := (List.nodup_cons.mp hI.ring.nodup).1
  rw [Kernel.killed, hI.others_eq]
  by_cases h1 : p = 1
  · rw [if_pos (hone.mpr h1)]
    exact ⟨fun hc => absurd hc (by simp), fun hc => absurd h1 hc.2.2.1⟩
  · rw [if_neg fun hc => h1 (hone.mp hc)]
    constructor
    · intro hf
      have hx := List.mem_of_find?_eq_some hf
      have heq := List.find?_some hf
      have hpid := (hword x (List.mem_cons_of_mem _ hx)).mp (beq_iff_eq.mp heq)
      exact ⟨List.mem_cons_of_mem _ hx, hpid, h1, fun hc => hnot (hc ▸ hx)⟩
    · rintro ⟨hx, hpid, -, hrun⟩
      have hxM : x ∈ M := (List.mem_cons.mp hx).resolve_left hrun
      cases hf : M.find? fun a => c.numbered.kernel.pidWord a == word p with
      | none =>
        have hnone := List.find?_eq_none.mp hf x hxM
        exact absurd ((hword x hx).mpr hpid) fun hc => hnone (beq_iff_eq.mpr hc)
      | some y =>
        -- pids are distinct
        have hy := List.mem_cons_of_mem c.numbered.kernel.runningThread
          (List.mem_of_find?_eq_some hf)
        have heq := List.find?_some hf
        have hpidy := (hword y hy).mp (beq_iff_eq.mp heq)
        rw [hC.distinct y hy x hx (hpidy.trans hpid.symm)]

/-- **`kill` with a number as `ps` prints it**, in every run: the process with this pid ends, if
there is one that is neither the shell nor the caller, and no other process does. -/
theorem kills_listed_of_run {k : Kernel} (h : ShellAlone image k) {es : List Event}
    (hr : Run Census.step (Safe image) ⟨⟨k, [], 0⟩, []⟩ es c) (h0 : 0 ≤ p) (hp : p < 2 ^ 63)
    {name option : List UInt8} {args : List (List UInt8)}
    (hargs : args = [name, decimal p] ∨ args = [name, option, decimal p]) {pid : Nat}
    (hmain : KillProgram.main args = some pid)
    (hsafe : ∀ a, c.numbered.kernel.killed pid = some a → c.numbered.kernel.ReleaseSafe a)
    (hs : c.numbered.kernel.step (.kill pid) = some k') (q : Int) :
    Alive k' q ↔ Alive c.numbered.kernel q ∧
      (q = p → p = 1 ∨ p = c.numbered.kernel.running.pidT) := by
  obtain ⟨L, D, hK⟩ := kept_of_run h hr
  obtain ⟨Γ, G, hI⟩ := hK.inv
  have hC := hK.counted
  obtain rfl : word p = pid := by
    rw [← KillProgram.toInteger_decimal h0 hp]
    rcases hargs with rfl | rfl
    · exact Option.some.inj hmain
    · exact Option.some.inj hmain
  obtain ⟨Γ', G', hI', -⟩ := hI.kill hsafe hs
  have hsame := hI.kill_keeps quiet_pidT.unlinked hs
  have halive' : Alive k' q ↔ ∃ a ∈ (c.numbered.kernel.killed (word p)).elim L L.erase,
      (k'.phys.tasks a).pidT = q := alive_iff (s := ⟨k', [], 0⟩) hI'
  rw [halive', alive_iff hI]
  cases hkilled : c.numbered.kernel.killed (word p) with
  | none =>
    -- nobody ends
    rw [Option.elim_none]
    constructor
    · rintro ⟨a, ha, hq⟩
      rw [hsame a (List.mem_append_left D ha)] at hq
      refine ⟨⟨a, ha, hq⟩, fun hqp => ?_⟩
      by_contra hspared
      rw [not_or] at hspared
      have hrun : a ≠ c.numbered.kernel.runningThread := by
        rintro rfl
        exact hspared.2 (hqp.symm.trans hq.symm)
      have hfound := (hK.killed_iff h0 hp).mpr ⟨ha, hq.trans hqp, hspared.1, hrun⟩
      rw [hkilled] at hfound
      cases hfound
    · rintro ⟨⟨a, ha, hq⟩, -⟩
      exact ⟨a, ha, (hsame a (List.mem_append_left D ha)).trans hq⟩
  | some x =>
    obtain ⟨hx, hpid, h1, hrun⟩ := (hK.killed_iff h0 hp).mp hkilled
    rw [Option.elim_some]
    constructor
    · rintro ⟨a, ha, hq⟩
      obtain ⟨hne, haL⟩ := hI.ring.nodup.mem_erase_iff.mp ha
      rw [hsame a (List.mem_append_left D haL)] at hq
      exact ⟨⟨a, haL, hq⟩, fun hqp => absurd (hC.distinct a haL x hx
        (hq.trans (hqp.trans hpid.symm))) hne⟩
    · rintro ⟨⟨a, ha, hq⟩, hspared⟩
      have hne : a ≠ x := by
        rintro rfl
        rcases hspared (hq.symm.trans hpid) with hp1 | hprun
        · exact h1 hp1
        · exact hrun (hC.distinct a ha _ hI.running_mem (hpid.trans hprun))
      exact ⟨a, hI.ring.nodup.mem_erase_iff.mpr ⟨hne, ha⟩,
        (hsame a (List.mem_append_left D ha)).trans hq⟩

/-- `kill -9 1` in the shell with a child ends nobody. -/
theorem kills_listed_of_run_shell : ∃ c k',
    Run Census.step (Safe 0x1000) ⟨⟨shellAt [pageVma 0x400000] 0x400000, [], 0⟩, []⟩
      [.fork entryRegs] c ∧
    c.numbered.kernel.step (.kill 1) = some k' ∧
    ∀ q, Alive k' q ↔ Alive c.numbered.kernel q := by
  obtain ⟨c, hr⟩ := census_of_fork
  have hkill : c.numbered.kernel.step (.kill 1) = some c.numbered.kernel := rfl
  refine ⟨c, _, hr, hkill, fun q => ?_⟩
  have hmain : KillProgram.main [text "kill", text "-9", decimal 1] = some 1 := by decide
  -- the shell is not looked for
  have hnone : ∀ a, c.numbered.kernel.killed 1 = some a → c.numbered.kernel.ReleaseSafe a := by
    intro a ha
    rw [Kernel.killed, if_pos rfl] at ha
    cases ha
  exact (kills_listed_of_run shellAlone_shellAt hr (by decide) (by decide) (Or.inr rfl) hmain hnone
    hkill q).trans (and_iff_left fun _ => Or.inl rfl)

end Census

end Sbunix
