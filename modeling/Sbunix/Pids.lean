import Sbunix.Records
import Sbunix.Terminal

/-!
# Process identities

`fork` numbers processes, `exec` keeps the number while it replaces the record, and `waitpid`
searches the ring for a number. What a step does to the two fields that matter, `pid_t` and
`state`, is said for each call (`Inv.fork_ids`, `Inv.exec_ids`, `Inv.other_ids`), and the
numbering follows by induction over a run:

* `Numbered.pids_of_run` — in a run that stays clear of the defects no two tasks on the ring have
  the same pid, `fork` returns no number twice, and `waitpid` finds a process as long as it is on
  the ring and never again;
* `Numbered.shell_forks_twice_to_zero` — `fork` does not look whether it got its pages. With no
  page left the record and the kernel stack of the child are both on page `0`, and `0` is
  returned, each time.
-/

namespace Sbunix

open ByteMem Chain Runs

variable {image : Nat} {Γ Γ' : Nat → Use} {L M D G : List Nat} {k k' : Kernel} {s s' : Phys}
  {x r : Nat}

/-! ### Records -/

/-- The records have their pids and states. -/
def Phys.SameIds (s s' : Phys) : Prop :=
  ∀ a, (s'.tasks a).pidT = (s.tasks a).pidT ∧ (s'.tasks a).state = (s.tasks a).state

/-- The two fields. -/
def Task.ids (t : Task) : Int × Nat := (t.pidT, t.state)

theorem Phys.SameIds.trans {s'' : Phys} (h : s.SameIds s') (h' : s'.SameIds s'') :
    s.SameIds s'' :=
  fun a => ⟨(h' a).1.trans (h a).1, (h' a).2.trans (h a).2⟩

theorem quiet_ids : Quiet Task.ids := ⟨fun _ _ => rfl, fun _ _ => rfl, fun _ => rfl⟩

theorem ids_eq_iff {t t' : Task} : t.ids = t'.ids ↔ t.pidT = t'.pidT ∧ t.state = t'.state :=
  Prod.mk_inj

theorem sameIds_of_sameIn (h : s.SameIn Task.ids s') : s.SameIds s' := fun a => ids_eq_iff.mp (h a)

theorem Phys.sameIds_setNext (s : Phys) (a b : Nat) : s.SameIds (s.setNext a b) :=
  sameIds_of_sameIn (quiet_ids.unlinked.setNext s a b)

theorem Kernel.activate_pidCount (k : Kernel) (a : Nat) : (k.activate a).pidCount = k.pidCount := by
  unfold Kernel.activate
  dsimp only
  split <;> rfl

theorem addToDeleteQueue_pidCount (hs : k.addToDeleteQueue x = some k') :
    k'.pidCount = k.pidCount := by
  unfold Kernel.addToDeleteQueue at hs
  split at hs
  · obtain rfl := Option.some.inj hs
    rfl
  · simp only [Option.bind_eq_bind] at hs
    obtain ⟨temp, -, hs⟩ := Option.bind_eq_some_iff.mp hs
    obtain rfl := Option.some.inj hs
    rfl

/-- The timer changes no pid and no state. -/
theorem runNextTask_ids {regs : SwitchRegs} (hs : k.runNextTask regs = some k') :
    k.phys.SameIds k'.phys ∧ k'.pidCount = k.pidCount := by
  refine ⟨sameIds_of_sameIn (quiet_ids.runNextTask hs), ?_⟩
  unfold Kernel.runNextTask at hs
  dsimp only at hs
  set k₁ := k.modifyTask k.runningThread _ with hk₁
  set next := k₁.phys.next k₁.runningThread with hnext
  have hc := { k₁ with runningThread := next }.activate_pidCount next
  split at hs
  · simp only [Option.bind_eq_bind] at hs
    obtain ⟨k₃, hk₃, hs⟩ := Option.bind_eq_some_iff.mp hs
    obtain rfl := Option.some.inj hs
    unfold Kernel.changeToAlarmFunction at hk₃
    obtain ⟨a, -, rfl⟩ := Option.map_eq_some_iff.mp hk₃
    exact hc
  · simp only [Option.bind_eq_bind, Option.bind_some] at hs
    obtain rfl := Option.some.inj hs
    exact hc

theorem deleteRunningThreadAndJump_pidCount (hs : k.deleteRunningThreadAndJump x = some k') :
    k'.pidCount = k.pidCount := by
  unfold Kernel.deleteRunningThreadAndJump at hs
  simp only [Option.bind_eq_bind] at hs
  obtain ⟨temp, -, hs⟩ := Option.bind_eq_some_iff.mp hs
  obtain rfl := Option.some.inj hs
  exact Kernel.activate_pidCount _ _

theorem terminate_pidCount (hs : k.terminate x = some k') : k'.pidCount = k.pidCount := by
  unfold Kernel.terminate at hs
  simp only [Option.bind_eq_bind] at hs
  obtain ⟨s₂, -, hs⟩ := Option.bind_eq_some_iff.mp hs
  generalize s₂.freePageTables (s₂.tasks x).regs.cr3 = s₃ at hs
  obtain ⟨temp, -, hs⟩ := Option.bind_eq_some_iff.mp hs
  obtain ⟨k₄, hk₄, hs⟩ := Option.bind_eq_some_iff.mp hs
  have hcount := addToDeleteQueue_pidCount hk₄
  obtain rfl := Option.some.inj hs
  exact (Kernel.activate_pidCount _ _).trans hcount

theorem kill_pidCount {pid : Nat} (hs : k.kill pid = some k') : k'.pidCount = k.pidCount := by
  unfold Kernel.kill at hs
  split at hs
  · obtain rfl := Option.some.inj hs
    rfl
  · simp only [Option.bind_eq_bind] at hs
    obtain ⟨task, -, hs⟩ := Option.bind_eq_some_iff.mp hs
    split at hs
    · obtain rfl := Option.some.inj hs
      rfl
    · obtain ⟨s₂, -, hs⟩ := Option.bind_eq_some_iff.mp hs
      generalize s₂.freePageTables _ = s₃ at hs
      have hcount := addToDeleteQueue_pidCount hs
      exact hcount

/-! ### Calls -/

/-- **`fork`** gives the child the next pid. -/
theorem Inv.fork_ids (h : Inv image Γ L D G k) {u : UserRegs} {pid : Int}
    (hs : k.fork u = some (pid, k')) (hx : k'.phys.exhausted = false) :
    (∀ a ∈ L, (k'.phys.tasks a).pidT = (k.phys.tasks a).pidT ∧
      (k'.phys.tasks a).state = (k.phys.tasks a).state) ∧
    (k'.phys.tasks (kernbase + k.phys.kmalloc.1)).pidT = intSucc k.pidCount ∧
    (k'.phys.tasks (kernbase + k.phys.kmalloc.1)).state = 1 ∧
    k'.pidCount = intSucc k.pidCount ∧ pid = intSucc k.pidCount := by
  obtain ⟨hkeep, root, rsp, mmap, hchild⟩ := h.fork_keeps quiet_ids.unlinked hs hx
  obtain ⟨hpidT, hstate⟩ := ids_eq_iff.mp hchild
  -- the pid that is returned is read from the record
  have hret : pid = (k'.phys.tasks (kernbase + k.phys.kmalloc.1)).pidT ∧
      k'.pidCount = intSucc k.pidCount := by
    unfold Kernel.fork at hs
    simp only [Option.bind_eq_bind] at hs
    obtain ⟨k₁, hk₁, hs⟩ := Option.bind_eq_some_iff.mp hs
    obtain ⟨s, hmake, hs⟩ := Option.bind_eq_some_iff.mp hs
    simp only [Option.pure_def, Option.some.injEq, Prod.mk.injEq] at hs
    obtain ⟨rfl, rfl⟩ := hs
    refine ⟨by rw [makeParentCr3asReadOnly_tasks hmake], ?_⟩
    unfold Kernel.createChildTask at hk₁
    simp only [Option.bind_eq_bind] at hk₁
    obtain ⟨s₂, -, hk₁⟩ := Option.bind_eq_some_iff.mp hk₁
    obtain rfl := Option.some.inj hk₁
    rfl
  exact ⟨fun a ha => ids_eq_iff.mp (hkeep a ha), hpidT, hstate, hret.2, hret.1.trans hpidT⟩

/-- **`exec`** keeps the pid, and the next one is skipped. -/
theorem Inv.exec_ids (h : Inv image Γ L D G k) {path : List UInt8} {found : Option (Nat × Nat)}
    {args envp : List (List UInt8)} (hok : k.Sound image (.exec path found args envp))
    (hs : k.exec path found args envp = some k') (hx : k'.phys.exhausted = false) :
    (∀ a ∈ L, (k'.phys.tasks a).pidT = (k.phys.tasks a).pidT ∧
      (k'.phys.tasks a).state = (k.phys.tasks a).state) ∧
    (k'.phys.tasks (kernbase + k.phys.kmalloc.1)).pidT = k.running.pidT ∧
    (k'.phys.tasks (kernbase + k.phys.kmalloc.1)).state = 1 ∧
    k'.pidCount = intSucc k.pidCount ∧ kernbase + k.phys.kmalloc.1 ∉ L := by
  obtain ⟨hkeep, ⟨t, old, entry, cr3, rsp, fd, mmap, hnew⟩, hnot⟩ :=
    h.exec_keeps quiet_ids.unlinked hok hs hx
  obtain ⟨⟨elf, size, rfl, helf, hL⟩, hargs, henvp⟩ := hok
  obtain ⟨root, k₂, Γ', hn, hpid, hjump, -, hne, -⟩ := h.newImage helf hL hargs henvp hs hx
  refine ⟨fun a ha => ids_eq_iff.mp (hkeep a ha), ?_, (ids_eq_iff.mp hnew).2, ?_, hnot⟩
  · exact (ids_eq_iff.mp (quiet_ids.unlinked.deleteRunningThreadAndJump hjump _)).1.trans hpid
  unfold Kernel.exec at hs
  dsimp only at hs
  rw [if_neg hne] at hs
  unfold Kernel.execLoaded at hs
  simp only [Option.bind_eq_bind] at hs
  obtain ⟨s₁, -, hs⟩ := Option.bind_eq_some_iff.mp hs
  split at hs
  · cases hs
  · exact deleteRunningThreadAndJump_pidCount hs

/-- **The other calls** change no pid and no state of a task that stays on the ring. -/
theorem Inv.other_ids (h : Inv image Γ L D G k) {e : Event} (hs : k.step e = some k')
    (hfork : ∀ u, e ≠ .fork u) (hexec : ∀ path found args envp, e ≠ .exec path found args envp)
    (haccess : ∀ v w, e ≠ .access v w) :
    (∀ a ∈ k.ringAfter L e, a ∈ L ∧ (k'.phys.tasks a).pidT = (k.phys.tasks a).pidT ∧
      (k'.phys.tasks a).state = (k.phys.tasks a).state) ∧ k'.pidCount = k.pidCount := by
  have hkeep := h.other_keeps quiet_ids hs hfork hexec haccess
  refine ⟨fun a ha => ⟨(hkeep a ha).1, ids_eq_iff.mp (hkeep a ha).2⟩, ?_⟩
  cases e with
  | fork u => exact absurd rfl (hfork u)
  | exec path found args envp => exact absurd rfl (hexec path found args envp)
  | access v w => exact absurd rfl (haccess v w)
  | exit =>
    replace hs : k.exit = some k' := hs
    unfold Kernel.exit at hs
    split at hs
    · obtain rfl := Option.some.inj hs
      rfl
    · exact terminate_pidCount hs
  | kill pid => exact kill_pidCount hs
  | exitpid pid =>
    replace hs : k.exitpid pid = some k' := hs
    unfold Kernel.exitpid at hs
    split at hs
    · obtain rfl := Option.some.inj hs
      rfl
    · simp only [Option.bind_eq_bind] at hs
      obtain ⟨x, -, hs⟩ := Option.bind_eq_some_iff.mp hs
      split at hs
      · obtain rfl := Option.some.inj hs
        rfl
      · exact terminate_pidCount hs
  | timer r => exact (runNextTask_ids hs).2

/-! ### waitpid -/

/-- The search of `waitpid`, with what it returns at the first match. -/
def Kernel.waitpidLoop (k : Kernel) (pid : Nat) : Nat → Nat → Option (Option Nat)
  | 0, _ => none
  | fuel + 1, tempTask =>
    if tempTask = k.runningThread then some none
    else if pid = 2 ^ 64 - 1 then
      if (k.phys.tasks tempTask).ppidT = k.running.ppidT ∧ (k.phys.tasks tempTask).state = 1 then
        some (some ((k.phys.tasks tempTask).ppidT % 2 ^ 64).toNat)
      else k.waitpidLoop pid fuel (k.phys.next tempTask)
    else if k.pidWord tempTask = pid ∧ (k.phys.tasks tempTask).state = 1 then some (some pid)
    else k.waitpidLoop pid fuel (k.phys.next tempTask)

/-- `waitpid`: the status that it stores and the value that it returns. -/
def Kernel.waitpid (k : Kernel) (pid : Nat) : Option (Nat × Nat) :=
  (k.waitpidLoop pid walkFuel (k.phys.next k.runningThread)).map fun
    | some value => (1, value)
    | none => (0, 2 ^ 64 - 1)

theorem waitpidLoop_of_seg {pid n b : Nat} {l : List Nat}
    (h : Seg k.phys.next b l k.runningThread) (hnot : k.runningThread ∉ l)
    (hpid : pid ≠ 2 ^ 64 - 1) (hstate : ∀ a ∈ l, (k.phys.tasks a).state = 1)
    (hn : l.length < n) :
    k.waitpidLoop pid n b = some (if ∃ a ∈ l, k.pidWord a = pid then some pid else none) := by
  -- induction along the ring, up to the caller
  induction l generalizing b n with
  | nil =>
    obtain ⟨n, rfl⟩ := Nat.exists_eq_succ_of_ne_zero (show n ≠ 0 by omega)
    obtain rfl : b = k.runningThread := h
    rw [Kernel.waitpidLoop, if_pos rfl, if_neg (by simp)]
  | cons a l ih =>
    obtain ⟨n, rfl⟩ := Nat.exists_eq_succ_of_ne_zero (show n ≠ 0 by omega)
    obtain ⟨rfl, h⟩ := h
    rw [List.length_cons] at hn
    have hne : b ≠ k.runningThread := fun hc => hnot (hc ▸ List.mem_cons_self)
    rw [Kernel.waitpidLoop, if_neg hne, if_neg hpid]
    by_cases hb : k.pidWord b = pid
    · rw [if_pos ⟨hb, hstate b List.mem_cons_self⟩, if_pos ⟨b, List.mem_cons_self, hb⟩]
    · rw [if_neg fun hc => hb hc.1, ih h (fun hc => hnot (List.mem_cons_of_mem b hc))
        (fun a ha => hstate a (List.mem_cons_of_mem b ha)) (by omega)]
      have hiff : (∃ a ∈ l, k.pidWord a = pid) ↔ ∃ a ∈ b :: l, k.pidWord a = pid := by
        simp [hb]
      simp only [hiff]

/-- **`waitpid`** finds the tasks on the ring behind the caller. -/
theorem Inv.waitpid_eq (h : Inv image Γ L D G k) {pid : Nat} (hpid : pid ≠ 2 ^ 64 - 1)
    (hstate : ∀ a ∈ L, (k.phys.tasks a).state = 1) (hrun : k.pidWord k.runningThread ≠ pid) :
    k.waitpid pid = some (if ∃ a ∈ L, k.pidWord a = pid then (1, pid) else (0, 2 ^ 64 - 1)) := by
  obtain ⟨M, rfl⟩ := h.ring.exists_tail
  have hlen := h.length_lt
  simp only [List.length_append, List.length_cons] at hlen
  have hiff : (∃ a ∈ k.runningThread :: M, k.pidWord a = pid) ↔ ∃ a ∈ M, k.pidWord a = pid := by
    simp [hrun]
  rw [Kernel.waitpid, waitpidLoop_of_seg h.ring.seg.2 (List.nodup_cons.mp h.ring.nodup).1 hpid
    (fun a ha => hstate a (List.mem_cons_of_mem _ ha)) (by omega), Option.map_some]
  by_cases hex : ∃ a ∈ M, k.pidWord a = pid
  · rw [if_pos hex, if_pos (hiff.mpr hex)]
  · rw [if_neg hex, if_neg fun hc => hex (hiff.mp hc)]

/-! ### Runs -/

/-- The kernel with the pids that `fork` has returned, and the number of calls of `fork` and
`exec`. -/
structure Numbered where
  kernel : Kernel
  returned : List Int
  calls : Nat

namespace Numbered

/-- A step, with its entry in the record. -/
def step (s : Numbered) : Event → Option Numbered
  | .fork u => (s.kernel.fork u).map fun r => ⟨r.2, r.1 :: s.returned, s.calls + 1⟩
  | .exec path found args envp =>
    (s.kernel.exec path found args envp).map fun k => ⟨k, s.returned, s.calls + 1⟩
  | e => (s.kernel.step e).map fun k => ⟨k, s.returned, s.calls⟩

/-- The calls of `fork` and `exec` among the events. -/
def creations : Event → Nat
  | .fork _ | .exec _ _ _ _ => 1
  | _ => 0

/-- **The runs in question**: system calls and switches, `exec` only by children, and fewer than
`2 ^ 31 - 1` calls of `fork` and `exec`. -/
structure Admitted (s : Numbered) (e : Event) : Prop where
  noAccess : ∀ v w, e ≠ .access v w
  child : ∀ path found args envp, e = .exec path found args envp → s.kernel.running.pidT ≠ 1
  few : s.calls + creations e < 2 ^ 31 - 1

/-- **The step stays clear of the defects**, and does not find memory exhausted. -/
def Safe (image : Nat) (s : Numbered) (e : Event) : Prop :=
  Admitted s e ∧ s.kernel.Sound image e ∧ s.kernel.Enough e

/-- A task on the ring has the pid `p`. -/
def Alive (k : Kernel) (p : Int) : Prop := ∃ a, k.OnRing a ∧ (k.phys.tasks a).pidT = p

/-- The pid as the 64-bit argument of `waitpid`. -/
def word (p : Int) : Nat := (p % 2 ^ 64).toNat

open Classical in
/-- **Pids identify processes**, and `waitpid` tells which of them there are. -/
structure PidsOk (s : Numbered) : Prop where
  distinct : ∀ a b, s.kernel.OnRing a → s.kernel.OnRing b →
    (s.kernel.phys.tasks a).pidT = (s.kernel.phys.tasks b).pidT → a = b
  fresh : s.returned.Nodup
  waitpid : ∀ p ∈ s.returned, s.kernel.running.pidT ≠ p →
    s.kernel.waitpid (word p) =
      some (if Alive s.kernel p then (1, word p) else (0, 2 ^ 64 - 1))

/-- **The invariant of the numbering**, for the tasks `L` on the ring. -/
structure Counted (s : Numbered) (L : List Nat) : Prop where
  count : s.kernel.pidCount = 1 + s.calls
  few : s.calls ≤ 2 ^ 31 - 2
  state : ∀ a ∈ L, (s.kernel.phys.tasks a).state = 1
  distinct : ∀ a ∈ L, ∀ b ∈ L,
    (s.kernel.phys.tasks a).pidT = (s.kernel.phys.tasks b).pidT → a = b
  bound : ∀ a ∈ L, 1 ≤ (s.kernel.phys.tasks a).pidT ∧
    (s.kernel.phys.tasks a).pidT ≤ s.kernel.pidCount
  fresh : s.returned.Nodup
  returned : ∀ p ∈ s.returned, 1 < p ∧ p ≤ s.kernel.pidCount

variable {s s' : Numbered} {e : Event} {p : Int}

/-- The next pid. -/
theorem Counted.next (h : Counted s L) (hf : s.calls + 1 < 2 ^ 31 - 1) :
    intSucc s.kernel.pidCount = s.kernel.pidCount + 1 := by
  have := h.count
  exact Terminal.intSucc_of_lt (by omega) (by omega)

/-- Tasks that stay, and one task `t` with a pid that none of these has. -/
theorem Counted.renew (h : Counted s L) {L' : List Nat} {t : Nat}
    (hcount : s'.kernel.pidCount = 1 + s'.calls) (hfew : s'.calls ≤ 2 ^ 31 - 2)
    (hle : s.kernel.pidCount ≤ s'.kernel.pidCount)
    (hmem : ∀ a ∈ L', (a ∈ L ∧ (s'.kernel.phys.tasks a).pidT = (s.kernel.phys.tasks a).pidT ∧
        (s'.kernel.phys.tasks a).state = (s.kernel.phys.tasks a).state) ∨
      (a = t ∧ (s'.kernel.phys.tasks t).state = 1 ∧ 1 ≤ (s'.kernel.phys.tasks t).pidT ∧
        (s'.kernel.phys.tasks t).pidT ≤ s'.kernel.pidCount ∧
        ∀ b ∈ L, b ∈ L' → (s.kernel.phys.tasks b).pidT ≠ (s'.kernel.phys.tasks t).pidT))
    (hfresh : s'.returned.Nodup) (hret : ∀ p ∈ s'.returned, 1 < p ∧ p ≤ s'.kernel.pidCount) :
    Counted s' L' where
  count := hcount
  few := hfew
  state a ha := by
    rcases hmem a ha with ⟨haL, -, hst⟩ | ⟨rfl, hst, -⟩
    · exact hst.trans (h.state a haL)
    · exact hst
  distinct a ha b hb hab := by
    rcases hmem a ha with ⟨haL, hpa, -⟩ | ⟨rfl, -, -, -, hna⟩
    · rcases hmem b hb with ⟨hbL, hpb, -⟩ | ⟨rfl, -, -, -, hnb⟩
      · exact h.distinct a haL b hbL (by rw [← hpa, ← hpb, hab])
      · exact absurd (hpa.symm.trans hab) (hnb a haL ha)
    · rcases hmem b hb with ⟨hbL, hpb, -⟩ | ⟨rfl, -⟩
      · exact absurd (hpb.symm.trans hab.symm) (hna b hbL hb)
      · rfl
  bound a ha := by
    rcases hmem a ha with ⟨haL, hpa, -⟩ | ⟨rfl, -, h1, hle', -⟩
    · rw [hpa]
      exact ⟨(h.bound a haL).1, le_trans (h.bound a haL).2 hle⟩
    · exact ⟨h1, hle'⟩
  fresh := hfresh
  returned := hret

/-- What a step has done to the pids on the ring: they are those from before, or new ones. -/
structure Advanced (s : Numbered) (L : List Nat) (s' : Numbered) (L' : List Nat) : Prop where
  counted : Counted s' L'
  le : s.kernel.pidCount ≤ s'.kernel.pidCount
  returned : ∀ q ∈ s.returned, q ∈ s'.returned
  pids : ∀ a ∈ L', (∃ b ∈ L, (s'.kernel.phys.tasks a).pidT = (s.kernel.phys.tasks b).pidT) ∨
    s.kernel.pidCount < (s'.kernel.phys.tasks a).pidT

/-- **`fork`** adds a task with a new pid. -/
theorem Counted.fork (h : Counted s L) (hI : Inv image Γ L D G s.kernel) {u : UserRegs}
    (hok : Safe image s (.fork u)) (hs : s.step (.fork u) = some s') :
    Advanced s L s' (s.kernel.ringAfter L (.fork u)) ∧
      s.kernel.step (.fork u) = some s'.kernel := by
  obtain ⟨hadm, -, hen⟩ := hok
  have hfew : s.calls + 1 < 2 ^ 31 - 1 := hadm.few
  have hnext := h.next hfew
  have hcount := h.count
  obtain ⟨⟨pid, k'⟩, hf, rfl⟩ := Option.map_eq_some_iff.mp hs
  have hstep : s.kernel.step (.fork u) = some k' := by rw [Kernel.step, hf, Option.map_some]
  obtain ⟨hids, hpidT, hstate, hc, hpid⟩ := hI.fork_ids hf (hen k' hstep)
  rw [hnext] at hpidT hc hpid
  refine ⟨?_, hstep⟩
  rw [Kernel.ringAfter]
  generalize kernbase + s.kernel.phys.kmalloc.1 = t at hpidT hstate ⊢
  -- the new task stands behind the caller
  have hmem : ∀ a ∈ L.take 1 ++ t :: L.tail, a ∈ L ∨ a = t := by
    intro a ha
    rcases List.mem_append.mp ha with ha | ha
    · exact Or.inl (List.mem_of_mem_take ha)
    · rcases List.mem_cons.mp ha with ha | ha
      · exact Or.inr ha
      · exact Or.inl (List.mem_of_mem_tail ha)
  have hle : s.kernel.pidCount ≤ k'.pidCount := by omega
  refine ⟨h.renew (t := t) (by simp only; omega) (by simp only; omega) hle (fun a ha => ?_) ?_
    fun p hp => ?_, hle, fun q hq => List.mem_cons_of_mem _ hq, fun a ha => ?_⟩
  · rcases hmem a ha with haL | rfl
    · exact Or.inl ⟨haL, hids a haL⟩
    · refine Or.inr ⟨rfl, hstate, by simp only; omega, by simp only; omega, fun b hb _ => ?_⟩
      have := (h.bound b hb).2
      simp only
      omega
  · -- the pid returned is larger than those before
    refine List.nodup_cons.mpr ⟨fun hc => ?_, h.fresh⟩
    have := (h.returned _ hc).2
    simp only at this
    omega
  · rcases List.mem_cons.mp hp with rfl | hp
    · simp only
      omega
    · have := h.returned p hp
      exact ⟨this.1, le_trans this.2 hle⟩
  · rcases hmem a ha with haL | rfl
    · exact Or.inl ⟨a, haL, (hids a haL).1⟩
    · refine Or.inr ?_
      simp only
      omega

/-- **`exec`** puts a task with the same pid in the place of the caller. -/
theorem Counted.exec (h : Counted s L) (hI : Inv image Γ L D G s.kernel) {path : List UInt8}
    {found : Option (Nat × Nat)} {args envp : List (List UInt8)}
    (hok : Safe image s (.exec path found args envp))
    (hs : s.step (.exec path found args envp) = some s') :
    Advanced s L s' (s.kernel.ringAfter L (.exec path found args envp)) ∧
      s.kernel.step (.exec path found args envp) = some s'.kernel := by
  obtain ⟨hadm, hsound, hen⟩ := hok
  have hfew : s.calls + 1 < 2 ^ 31 - 1 := hadm.few
  have hnext := h.next hfew
  have hcount := h.count
  obtain ⟨k', hf, rfl⟩ := Option.map_eq_some_iff.mp hs
  obtain ⟨hids, hpidT, hstate, hc, hnot⟩ := hI.exec_ids hsound hf (hen k' hf)
  rw [hnext] at hc
  refine ⟨?_, hf⟩
  -- the shell is on the ring as well
  have hchild := hadm.child path found args envp rfl
  have hnd := hI.ring.nodup
  obtain ⟨M, rfl⟩ := hI.ring.exists_tail
  have hM : M ≠ [] := by
    rintro rfl
    obtain ⟨a, ha, hpid⟩ := hI.init
    rw [List.mem_singleton.mp ha] at hpid
    exact hchild hpid
  rw [Kernel.ringAfter, List.tail_cons, if_neg hM]
  generalize kernbase + s.kernel.phys.kmalloc.1 = t at hpidT hstate hnot ⊢
  have hle : s.kernel.pidCount ≤ k'.pidCount := by omega
  have hrun := h.bound s.kernel.runningThread List.mem_cons_self
  have hrM := (List.nodup_cons.mp hnd).1
  refine ⟨h.renew (t := t) (by simp only; omega) (by simp only; omega) hle (fun a ha => ?_) h.fresh
    fun p hp => ?_, hle, fun q hq => hq, fun a ha => ?_⟩
  · rcases List.mem_cons.mp ha with rfl | haM
    · refine Or.inr ⟨rfl, hstate, ?_, ?_, fun b hb hb' => ?_⟩
      · rw [hpidT]
        exact hrun.1
      · rw [hpidT]
        exact le_trans hrun.2 hle
      · rw [hpidT]
        intro hc
        obtain rfl := h.distinct b hb _ List.mem_cons_self hc
        -- the caller has left the ring
        rcases List.mem_cons.mp hb' with hc | hc
        · exact hnot (hc ▸ List.mem_cons_self)
        · exact hrM hc
    · exact Or.inl ⟨List.mem_cons_of_mem _ haM, hids a (List.mem_cons_of_mem _ haM)⟩
  · have := h.returned p hp
    exact ⟨this.1, le_trans this.2 hle⟩
  · rcases List.mem_cons.mp ha with rfl | haM
    · exact Or.inl ⟨_, List.mem_cons_self, hpidT⟩
    · exact Or.inl ⟨a, List.mem_cons_of_mem _ haM, (hids a (List.mem_cons_of_mem _ haM)).1⟩

/-- **The other calls** take tasks off the ring, or turn it. -/
theorem Counted.other (h : Counted s L) (hI : Inv image Γ L D G s.kernel) {e : Event}
    (hadm : Admitted s e) (hfork : ∀ u, e ≠ .fork u)
    (hexec : ∀ path found args envp, e ≠ .exec path found args envp)
    (hs : s.step e = some s') :
    Advanced s L s' (s.kernel.ringAfter L e) ∧ s.kernel.step e = some s'.kernel := by
  have hmap : (s.kernel.step e).map (fun k => (⟨k, s.returned, s.calls⟩ : Numbered)) = some s' := by
    cases e with
    | fork u => exact absurd rfl (hfork u)
    | exec path found args envp => exact absurd rfl (hexec path found args envp)
    | exit => exact hs
    | kill pid => exact hs
    | exitpid pid => exact hs
    | timer r => exact hs
    | access v w => exact hs
  obtain ⟨k', hf, rfl⟩ := Option.map_eq_some_iff.mp hmap
  obtain ⟨hids, hc⟩ := hI.other_ids hf hfork hexec hadm.noAccess
  have hcount : k'.pidCount = 1 + s.calls := hc.trans h.count
  refine ⟨⟨h.renew (t := 0) hcount h.few (le_of_eq hc.symm) (fun a ha => Or.inl (hids a ha)) h.fresh
    fun p hp => ?_, le_of_eq hc.symm, fun q hq => hq, fun a ha => ?_⟩, hf⟩
  · have := h.returned p hp
    exact ⟨this.1, le_of_le_of_eq this.2 hc.symm⟩
  · exact Or.inl ⟨a, (hids a ha).1, (hids a ha).2.1⟩

/-- **One step.** -/
theorem Counted.step (h : Counted s L) (hI : Inv image Γ L D G s.kernel) (hok : Safe image s e)
    (hs : s.step e = some s') :
    ∃ Γ' D' G', Inv image Γ' (s.kernel.ringAfter L e) D' G' s'.kernel ∧
      Advanced s L s' (s.kernel.ringAfter L e) := by
  obtain ⟨hadv, hstep⟩ : Advanced s L s' (s.kernel.ringAfter L e) ∧
      s.kernel.step e = some s'.kernel := by
    cases e with
    | fork u => exact h.fork hI hok hs
    | exec path found args envp => exact h.exec hI hok hs
    | exit => exact h.other hI hok.1 (by simp) (by simp) hs
    | kill pid => exact h.other hI hok.1 (by simp) (by simp) hs
    | exitpid pid => exact h.other hI hok.1 (by simp) (by simp) hs
    | timer r => exact h.other hI hok.1 (by simp) (by simp) hs
    | access v w => exact absurd rfl (hok.1.noAccess v w)
  obtain ⟨Γ', D', G', hI'⟩ := hI.step hok.2.1 hok.2.2 hstep
  exact ⟨Γ', D', G', hI', hadv⟩

/-- The states that a run goes through. -/
def Good (image : Nat) (s : Numbered) : Prop :=
  ∃ Γ L D G, Inv image Γ L D G s.kernel ∧ Counted s L

theorem alive_iff (hI : Inv image Γ L D G s.kernel) :
    Alive s.kernel p ↔ ∃ a ∈ L, (s.kernel.phys.tasks a).pidT = p := by
  simp only [Alive, hI.onRing_iff]

/-- Pids are small numbers. -/
theorem Counted.word_eq (h : Counted s L) {a : Nat} (ha : a ∈ L) (hp : 1 < p)
    (hle : p ≤ s.kernel.pidCount) :
    s.kernel.pidWord a = word p ↔ (s.kernel.phys.tasks a).pidT = p := by
  have hb := h.bound a ha
  have hc := h.count
  have hf := h.few
  rw [Kernel.pidWord, word]
  omega

theorem Counted.word_ne (h : Counted s L) (hp : 1 < p) (hle : p ≤ s.kernel.pidCount) :
    word p ≠ 2 ^ 64 - 1 := by
  have hc := h.count
  have hf := h.few
  rw [word]
  omega

open Classical in
/-- What `waitpid` says. -/
theorem Counted.waitpid (h : Counted s L) (hI : Inv image Γ L D G s.kernel) (hp : 1 < p)
    (hle : p ≤ s.kernel.pidCount) (hrun : s.kernel.running.pidT ≠ p) :
    s.kernel.waitpid (word p) =
      some (if Alive s.kernel p then (1, word p) else (0, 2 ^ 64 - 1)) := by
  have hne : s.kernel.pidWord s.kernel.runningThread ≠ word p := fun hc =>
    hrun ((h.word_eq hI.running_mem hp hle).mp hc)
  have hiff : (∃ a ∈ L, s.kernel.pidWord a = word p) ↔ Alive s.kernel p := by
    rw [alive_iff hI]
    exact exists_congr fun a => and_congr_right fun ha => h.word_eq ha hp hle
  rw [hI.waitpid_eq (h.word_ne hp hle) h.state hne]
  by_cases hal : Alive s.kernel p
  · rw [if_pos (hiff.mpr hal), if_pos hal]
  · rw [if_neg fun hc => hal (hiff.mp hc), if_neg hal]

theorem Good.pidsOk (h : Good image s) : PidsOk s := by
  obtain ⟨Γ, L, D, G, hI, hC⟩ := h
  refine ⟨fun a b ha hb => ?_, hC.fresh, fun p hp hrun => ?_⟩
  · exact hC.distinct a (hI.onRing_iff.mp ha) b (hI.onRing_iff.mp hb)
  · exact hC.waitpid hI (hC.returned p hp).1 (hC.returned p hp).2 hrun

theorem good_of_run {es : List Event} (h : Good image s)
    (hr : Run Numbered.step (Safe image) s es s') : Good image s' :=
  hr.invariant h fun t e t' ⟨Γ, L, D, G, hI, hC⟩ hok hs => by
    obtain ⟨Γ', D', G', hI', hadv⟩ := hC.step hI hok hs
    exact ⟨Γ', _, D', G', hI', hadv.counted⟩

/-- **Gone for good**: a number that has been given out and is not on the ring does not come
back. -/
theorem gone_of_run {es : List Event} (h : Good image s)
    (hr : Run Numbered.step (Safe image) s es s') (hle : p ≤ s.kernel.pidCount)
    (hgone : ¬ Alive s.kernel p) : p ≤ s'.kernel.pidCount ∧ ¬ Alive s'.kernel p := by
  refine (hr.invariant (I := fun t => Good image t ∧ p ≤ t.kernel.pidCount ∧ ¬ Alive t.kernel p)
    ⟨h, hle, hgone⟩ fun t e t' ⟨⟨Γ, L, D, G, hI, hC⟩, hle, hgone⟩ hok hs => ?_).2
  obtain ⟨Γ', D', G', hI', hadv⟩ := hC.step hI hok hs
  refine ⟨⟨Γ', _, D', G', hI', hadv.counted⟩, le_trans hle hadv.le, fun hal => ?_⟩
  obtain ⟨a, ha, hpa⟩ := (alive_iff hI').mp hal
  rcases hadv.pids a ha with ⟨b, hb, hpb⟩ | hlt
  · exact hgone ((alive_iff hI).mpr ⟨b, hb, hpb.symm.trans hpa⟩)
  · omega

/-- **The shell alone**, before the first call. -/
structure ShellAlone (image : Nat) (k : Kernel) : Prop where
  inv : ∃ Γ G, Inv image Γ [k.runningThread] [] G k
  pid : k.running.pidT = 1
  state : k.running.state = 1
  count : k.pidCount = 1

theorem ShellAlone.good (h : ShellAlone image k) : Good image ⟨k, [], 0⟩ := by
  obtain ⟨⟨Γ, G, hI⟩, hpid, hstate, hcount⟩ := h
  have hrec : ∀ a ∈ [k.runningThread], k.phys.tasks a = k.running := fun a ha => by
    rw [List.mem_singleton.mp ha]
    rfl
  refine ⟨Γ, _, _, G, hI, hcount, Nat.zero_le _, fun a ha => ?_, fun a ha b hb _ => ?_,
    fun a ha => ?_, List.nodup_nil, fun p hp => by cases hp⟩
  · rw [hrec a ha, hstate]
  · rw [List.mem_singleton.mp ha, List.mem_singleton.mp hb]
  · simp only
    rw [hrec a ha, hpid, hcount]
    exact ⟨le_refl _, le_refl _⟩

end Numbered

/-! ### Out of memory -/

/-- The record on page `f` is on a frame that is taken, and has no VMAs. -/
structure Bare (s : Phys) (f : Nat) : Prop where
  pos : f ≠ 0
  used : ∀ n ∈ freeFrames s.availFrames, n * 0x1000 ≠ f
  mmap : (s.tasks (kernbase + f)).mmap = []

variable {f : Nat}

theorem Bare.congr (h : Bare s f) (ha : s'.availFrames = s.availFrames) (ht : s'.tasks = s.tasks) :
    Bare s' f :=
  ⟨h.pos, by rw [ha]; exact h.used, by rw [ht]; exact h.mmap⟩

theorem Bare.setTask (h : Bare s f) {a : Nat} {t : Task}
    (ht : t.mmap = (s.tasks a).mmap ∨ t.mmap = []) : Bare (s.setTask a t) f := by
  refine ⟨h.pos, h.used, ?_⟩
  have hmmap := h.mmap
  generalize kernbase + f = b at hmmap
  rw [Phys.setTask]
  dsimp only
  by_cases hb : b = a
  · subst hb
    rw [Function.update_self]
    rcases ht with ht | ht
    · exact ht.trans hmmap
    · exact ht
  · rw [Function.update_of_ne hb, hmmap]

/-- Without a free frame `kmalloc` returns page `0`. -/
theorem kmalloc_of_full (h : freeFrames s.availFrames = ∅) :
    s.kmalloc.1 = 0 ∧ s.kmalloc.2.availFrames = s.availFrames := by
  have hno : ∀ m < maxFrames, ¬ IsFree s.availFrames m := fun m hm hf => by
    have := mem_freeFrames.mpr ⟨hm, hf⟩
    rw [h] at this
    exact absurd this (Finset.notMem_empty m)
  rcases pageAllocator_cases s.availFrames with ⟨-, heq⟩ | ⟨n, hn, hfree, -⟩
  · simp only [Phys.kmalloc, Phys.pageAllocator, heq, Phys.memset_availFrames, and_self]
  · exact absurd hfree (hno n hn)

/-- A page that `kmalloc` hands out is another one, and is not free any more. -/
theorem Bare.kmalloc (h : Bare s f) : Bare s.kmalloc.2 f ∧
    (freeFrames s.kmalloc.2.availFrames).card ≤ (freeFrames s.availFrames).card - 1 := by
  -- page `0` is not the page of the record, and neither is a free one
  rcases Finset.eq_empty_or_nonempty (freeFrames s.availFrames) with hempty | hne
  · obtain ⟨hpage, havail⟩ := kmalloc_of_full hempty
    refine ⟨⟨h.pos, by rw [havail]; exact h.used, ?_⟩, by rw [havail, hempty]; simp⟩
    rw [Phys.kmalloc] at hpage
    rw [Phys.kmalloc, Phys.memset_tasks_of_ne _ fun hc => h.pos (hc.trans hpage)]
    exact h.mmap
  · obtain ⟨m, hm⟩ := hne
    obtain ⟨hm, hfree⟩ := mem_freeFrames.mp hm
    rcases pageAllocator_cases s.availFrames with ⟨hno, -⟩ | ⟨n, hn, hfree, -, heq⟩
    · exact absurd hfree (hno m hm)
    have hmem := mem_freeFrames.mpr ⟨hn, hfree⟩
    have havail : freeFrames s.kmalloc.2.availFrames = (freeFrames s.availFrames).erase n := by
      rw [← freeFrames_markasUsed]
      simp only [Phys.kmalloc, Phys.pageAllocator, heq, Phys.memset_availFrames]
    refine ⟨⟨h.pos, fun m hm => ?_, ?_⟩, ?_⟩
    · rw [havail] at hm
      exact h.used m (Finset.mem_of_mem_erase hm)
    · have hpage : s.pageAllocator.1 = n * 0x1000 := by simp only [Phys.pageAllocator, heq]
      rw [Phys.kmalloc, Phys.memset_tasks_of_ne _ fun hc => h.used n hmem (hpage ▸ hc.symm)]
      exact h.mmap
    · rw [havail, Finset.card_erase_of_mem hmem]

theorem Bare.getNewPML4ForUser (h : Bare s f) (cr3 : Nat) :
    Bare (s.getNewPML4ForUser cr3).2 f ∧
      (s.getNewPML4ForUser cr3).2.availFrames = s.kmalloc.2.availFrames := by
  rw [Phys.getNewPML4ForUser]
  exact ⟨h.kmalloc.1.congr (Phys.store64_availFrames _ _ _) (Phys.store64_tasks _ _ _),
    Phys.store64_availFrames _ _ _⟩

theorem Bare.addToQueue (h : Bare k.phys f) (a : Nat) : Bare (k.addToQueue a).phys f :=
  (h.setTask (t := { k.phys.tasks a with next := k.phys.next k.runningThread })
    (Or.inl rfl)).setTask (Or.inl rfl)

theorem Bare.makeParentCr3asReadOnly (h : Bare k.phys f) (hr : k.runningThread = kernbase + f) :
    k.phys.makeParentCr3asReadOnly k.running.mmap k.running.regs.cr3 = some k.phys := by
  rw [Kernel.running, hr, h.mmap]
  rfl

/-- The child is made, for a parent without VMAs. Without a free frame its kernel stack is page `0`,
and clears a record there. -/
theorem Bare.createChildTask (h : Bare k.phys f) (hr : k.runningThread = kernbase + f) (page : Nat)
    (u : UserRegs) : ∃ k', k.createChildTask (kernbase + page) u = some k' ∧
      k'.runningThread = kernbase + f ∧ Bare k'.phys f ∧
      (freeFrames k'.phys.availFrames).card ≤ (freeFrames k.phys.availFrames).card ∧
      (freeFrames k.phys.availFrames = ∅ → page = 0 →
        (k'.phys.tasks (kernbase + page)).pidT = 0) := by
  unfold Kernel.createChildTask
  dsimp only
  rw [hr]
  generalize htask : kernbase + page = task
  -- the root
  have hn₁ := h.kmalloc.2
  have hfull₁ : freeFrames k.phys.availFrames = ∅ →
      k.phys.kmalloc.2.availFrames = k.phys.availFrames := fun he => (kmalloc_of_full he).2
  obtain ⟨h₁, hnew⟩ := h.getNewPML4ForUser k.cr3
  rw [← hnew] at hn₁ hfull₁
  clear hnew
  generalize k.phys.getNewPML4ForUser k.cr3 = r₁ at h₁ hn₁ hfull₁ ⊢
  obtain ⟨root, s₁⟩ := r₁
  dsimp only at h₁ hn₁ hfull₁ ⊢
  generalize hchild : Kernel.initChild (s₁.tasks task) (intSucc k.pidCount) k.running.pidT u root =
    child
  have hmmap : child.mmap = (s₁.tasks task).mmap := by
    rw [← hchild]
    rfl
  -- there is nothing to copy
  set s₂ := s₁.setTask task child with hs₂
  have h₂ : Bare s₂ f := h₁.setTask (Or.inl hmmap)
  have havail₂ : s₂.availFrames = s₁.availFrames := by rw [hs₂, Phys.setTask]
  rw [h₂.mmap, show ∀ c p r, s₂.copyParentCr3Entries [] c p r = some s₂ from fun _ _ _ => rfl]
  simp only [Option.bind_eq_bind, Option.bind_some, Option.pure_def]
  -- the kernel stack
  obtain ⟨h₃, hn₃⟩ := h₂.kmalloc
  rw [havail₂] at hn₃
  have hzero : freeFrames k.phys.availFrames = ∅ → page = 0 →
      (s₂.kmalloc.2.tasks task).pidT = 0 := fun he hpage => by
    have hstack := (kmalloc_of_full (s := s₂) (by rw [havail₂, hfull₁ he, he])).1
    rw [Phys.kmalloc] at hstack
    rw [← htask, hpage, ← hstack, Phys.kmalloc]
    simp only [Phys.memset, Function.update_self]
    rfl
  generalize s₂.kmalloc = r₂ at h₃ hzero hn₃ ⊢
  obtain ⟨stack, s₃⟩ := r₂
  dsimp only at h₃ hzero hn₃ ⊢
  rw [h₃.mmap]
  simp only [Phys.copyVMA]
  generalize hfinish : Kernel.finishChild (s₃.tasks task) (s₃.tasks (kernbase + f)) u
    (kernbase + stack + 0x1000) [] = record
  have hrecord : record.mmap = [] ∧ record.pidT = (s₃.tasks task).pidT := by
    rw [← hfinish]
    exact ⟨rfl, rfl⟩
  set s₄ := s₃.setTask task record with hs₄
  have h₄ : Bare s₄ f := h₃.setTask (Or.inr hrecord.1)
  have havail : (s₄.prepareInitialKernelStack (s₄.tasks task).regs).availFrames =
      s₃.availFrames := by
    simp only [Phys.prepareInitialKernelStack, Phys.store64_availFrames]
    rw [hs₄, Phys.setTask]
  have htasks : (s₄.prepareInitialKernelStack (s₄.tasks task).regs).tasks = s₄.tasks := by
    simp only [Phys.prepareInitialKernelStack, Phys.store64_tasks]
  refine ⟨_, rfl, rfl, h₄.congr (by rw [havail, hs₄, Phys.setTask]) htasks, ?_, fun he hpage => ?_⟩
  · simp only [havail]
    omega
  · have hself : s₄.tasks task = record := by simp only [hs₄, Phys.setTask, Function.update_self]
    rw [htasks, hself, hrecord.2, hzero he hpage]

/-- **`fork` always comes back**, to a parent without VMAs, and when there is no frame left it
returns `0`. -/
theorem Bare.fork (h : Bare k.phys f) (hr : k.runningThread = kernbase + f) (u : UserRegs) :
    ∃ pid k', k.fork u = some (pid, k') ∧ k'.runningThread = kernbase + f ∧ Bare k'.phys f ∧
      (freeFrames k'.phys.availFrames).card ≤ (freeFrames k.phys.availFrames).card - 1 ∧
      (freeFrames k.phys.availFrames = ∅ → pid = 0) := by
  obtain ⟨h₀, hn₀⟩ := h.kmalloc
  have hfull : freeFrames k.phys.availFrames = ∅ →
      k.phys.kmalloc.1 = 0 ∧ k.phys.kmalloc.2.availFrames = k.phys.availFrames :=
    kmalloc_of_full
  obtain ⟨k₁, hk₁, hr₁, h₁, hn₁, hz₁⟩ := Bare.createChildTask
    (k := { k with phys := k.phys.kmalloc.2 }) h₀ hr k.phys.kmalloc.1 u
  unfold Kernel.fork
  dsimp only
  rw [hk₁]
  generalize k.phys.kmalloc = r at hn₀ hfull hn₁ hz₁ ⊢
  obtain ⟨page, s₀⟩ := r
  dsimp only at hn₀ hfull hn₁ hz₁ ⊢
  generalize kernbase + page = task at hz₁ ⊢
  -- the child is linked in, and there is nothing to protect
  have hb := h₁.addToQueue task
  have hids := (k₁.phys.sameIds_setNext task (k₁.phys.next k₁.runningThread)).trans
    (Phys.sameIds_setNext _ k₁.runningThread task)
  have havail : (k₁.addToQueue task).phys.availFrames = k₁.phys.availFrames := by
    simp only [Kernel.addToQueue, Phys.setNext, Phys.setTask]
  simp only [Option.bind_eq_bind, Option.bind_some, Option.pure_def]
  rw [hb.makeParentCr3asReadOnly hr₁, Option.bind_some]
  refine ⟨_, _, rfl, hr₁, hb, ?_, fun he => ?_⟩
  · rw [havail]
    omega
  · obtain ⟨hpage, h₀⟩ := hfull he
    exact (hids task).1.trans (hz₁ (by rw [h₀, he]) hpage)

namespace Numbered

/-- **Forking until memory is exhausted**, and twice more. -/
theorem returned_not_nodup {n : Nat} {s : Numbered} (h : Bare s.kernel.phys f)
    (hr : s.kernel.runningThread = kernbase + f)
    (hn : (freeFrames s.kernel.phys.availFrames).card ≤ n) (hfew : s.calls + n + 2 < 2 ^ 31 - 1)
    (u : UserRegs) :
    ∃ s', Run step Admitted s (List.replicate (n + 2) (.fork u)) s' ∧ ¬ s'.returned.Nodup := by
  have hok (t : Numbered) (ht : t.calls + 1 < 2 ^ 31 - 1) : Admitted t (.fork u) :=
    ⟨by simp, by simp, ht⟩
  induction n generalizing s with
  | zero =>
    -- no frame is left: both calls return `0`
    obtain ⟨pid₁, k₁, hs₁, hr₁, h₁, hn₁, hz₁⟩ := h.fork hr u
    obtain ⟨pid₂, k₂, hs₂, -, -, -, hz₂⟩ := h₁.fork hr₁ u
    have hstep₁ : s.step (.fork u) = some ⟨k₁, pid₁ :: s.returned, s.calls + 1⟩ := by
      rw [step, hs₁, Option.map_some]
    have hstep₂ : step ⟨k₁, pid₁ :: s.returned, s.calls + 1⟩ (.fork u) =
        some ⟨k₂, pid₂ :: pid₁ :: s.returned, s.calls + 1 + 1⟩ := by
      rw [step, hs₂, Option.map_some]
    refine ⟨_, .cons (hok s (by omega)) hstep₁
      (.cons (hok ⟨k₁, pid₁ :: s.returned, s.calls + 1⟩ (by simp only; omega)) hstep₂ (.nil _)), ?_⟩
    rw [hz₁ (Finset.card_eq_zero.mp (by omega)), hz₂ (Finset.card_eq_zero.mp (by omega))]
    simp
  | succ n ih =>
    obtain ⟨pid₁, k₁, hs₁, hr₁, h₁, hn₁, -⟩ := h.fork hr u
    have hstep₁ : s.step (.fork u) = some ⟨k₁, pid₁ :: s.returned, s.calls + 1⟩ := by
      rw [step, hs₁, Option.map_some]
    obtain ⟨s', hrun, hnot⟩ := ih (s := ⟨k₁, pid₁ :: s.returned, s.calls + 1⟩) h₁ hr₁
      (by simp only; omega) (by simp only; omega)
    exact ⟨s', .cons (hok s (by omega)) hstep₁ hrun, hnot⟩

end Numbered

end Sbunix
