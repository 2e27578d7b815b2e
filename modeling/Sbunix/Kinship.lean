import Sbunix.Pids

/-!
# Parents and children

Who is a child of whom follows from the calls: `fork` makes a child of its caller, and `exec`
replaces a record and nothing else. `Family` is the numbered kernel with the pid of the parent of
each task. The field `ppid_t` holds it after `fork`, and `exec` clears it.

`waitpid(-1)` compares the `ppid_t` of the other tasks with that of its caller, and returns what it
has compared.

* `Related` — the field is the pid of the parent or zero, and parents have smaller pids;
* `waitpid_any_of_run` — `waitpid(-1)` is right where it is right to return `-1`, and there only as
  long as no other task has the `ppid_t` of the caller.
-/

namespace Sbunix

open Chain Runs Numbered

variable {image : Nat} {Γ : Nat → Use} {L D G : List Nat} {k : Kernel} {e : Event}

/-- The parents after a step: a new task is a child of the caller, and a replaced one keeps its
parent. -/
def Kernel.parentAfter (k : Kernel) (parent : Nat → Int) : Event → Nat → Int
  | .fork _ => Function.update parent (kernbase + k.phys.kmalloc.1) k.running.pidT
  | .exec _ found _ _ =>
    if (k.execLoader found).2.1 = 0 then parent
    else Function.update parent (kernbase + k.phys.kmalloc.1) (parent k.runningThread)
  | _ => parent

theorem parentAfter_fork (k : Kernel) (parent : Nat → Int) (u : UserRegs) {t : Nat}
    (ht : kernbase + k.phys.kmalloc.1 = t) : k.parentAfter parent (.fork u) t = k.running.pidT := by
  rw [Kernel.parentAfter, ht, Function.update_self]

/-- The kernel, with the pid of the parent of each task. -/
structure Family where
  numbered : Numbered
  parent : Nat → Int

namespace Family

/-- The kernel itself. -/
def kernel (s : Family) : Kernel := s.numbered.kernel

def step (s : Family) (e : Event) : Option Family :=
  (s.numbered.step e).map fun n => ⟨n, s.kernel.parentAfter s.parent e⟩

/-- A task on the ring that the caller has forked, and that may have called `exec` since. -/
def IsChild (s : Family) (a : Nat) : Prop := s.kernel.OnRing a ∧ s.parent a = s.kernel.running.pidT

/-- **What `waitpid(-1)` is for**: it finds a child, or there is none. -/
structure WaitsForChildren (s : Family) : Prop where
  found : (∃ a, s.IsChild a) →
    ∃ a, s.IsChild a ∧ s.kernel.waitpid (2 ^ 64 - 1) = some (1, s.kernel.pidWord a)
  none : (¬ ∃ a, s.IsChild a) → s.kernel.waitpid (2 ^ 64 - 1) = some (0, 2 ^ 64 - 1)

/-- The caller has no child on the ring, and no other task there has its `ppid_t`. -/
def Childless (s : Family) : Prop :=
  (¬ ∃ a, s.IsChild a) ∧ ∀ a, s.kernel.OnRing a → a ≠ s.kernel.runningThread →
    (s.kernel.phys.tasks a).ppidT ≠ s.kernel.running.ppidT

/-! ### The search -/

theorem waitpidLoop_any {n b : Nat} {l : List Nat} (h : Seg k.phys.next b l k.runningThread)
    (hnot : k.runningThread ∉ l) (hstate : ∀ a ∈ l, (k.phys.tasks a).state = 1)
    (hn : l.length < n) :
    k.waitpidLoop (2 ^ 64 - 1) n b =
      some (if ∃ a ∈ l, (k.phys.tasks a).ppidT = k.running.ppidT then
        some (word k.running.ppidT) else none) := by
  -- induction along the ring, up to the caller
  induction l generalizing b n with
  | nil =>
    obtain ⟨n, rfl⟩ := Nat.exists_eq_succ_of_ne_zero (show n ≠ 0 by omega)
    obtain rfl : b = k.runningThread := h
    rw [Kernel.waitpidLoop, if_pos rfl, if_neg (by simp)]
  | cons a l ih =>
    obtain ⟨n, rfl⟩ := Nat.exists_eq_succ_of_ne_zero (show n ≠ 0 by omega)
    obtain ⟨rfl, h⟩ := h
    rw [List.length_cons] at hn
    have hne : b ≠ k.runningThread := fun hc => hnot (hc ▸ List.mem_cons_self)
    rw [Kernel.waitpidLoop, if_neg hne, if_pos rfl]
    by_cases hb : (k.phys.tasks b).ppidT = k.running.ppidT
    · rw [if_pos ⟨hb, hstate b List.mem_cons_self⟩, if_pos ⟨b, List.mem_cons_self, hb⟩, hb, word]
    · rw [if_neg fun hc => hb hc.1, ih h (fun hc => hnot (List.mem_cons_of_mem b hc))
        (fun a ha => hstate a (List.mem_cons_of_mem b ha)) (by omega)]
      have hiff : (∃ a ∈ l, (k.phys.tasks a).ppidT = k.running.ppidT) ↔
          ∃ a ∈ b :: l, (k.phys.tasks a).ppidT = k.running.ppidT := by
        simp [hb]
      simp only [hiff]

/-- **`waitpid(-1)`** looks for a task with the `ppid_t` of the caller. -/
theorem waitpid_any (h : Inv image Γ L D G k) (hstate : ∀ a ∈ L, (k.phys.tasks a).state = 1) :
    k.waitpid (2 ^ 64 - 1) =
      some (if ∃ a ∈ L, a ≠ k.runningThread ∧ (k.phys.tasks a).ppidT = k.running.ppidT then
        (1, word k.running.ppidT) else (0, 2 ^ 64 - 1)) := by
  obtain ⟨M, rfl⟩ := h.ring.exists_tail
  have hlen := h.length_lt
  simp only [List.length_append, List.length_cons] at hlen
  have hnot := (List.nodup_cons.mp h.ring.nodup).1
  have hiff : (∃ a ∈ k.runningThread :: M, a ≠ k.runningThread ∧
      (k.phys.tasks a).ppidT = k.running.ppidT) ↔
      ∃ a ∈ M, (k.phys.tasks a).ppidT = k.running.ppidT := by
    constructor
    · rintro ⟨a, ha, hne, hp⟩
      exact ⟨a, (List.mem_cons.mp ha).resolve_left hne, hp⟩
    · rintro ⟨a, ha, hp⟩
      exact ⟨a, List.mem_cons_of_mem _ ha, fun hc => hnot (hc ▸ ha), hp⟩
  rw [Kernel.waitpid, waitpidLoop_any h.ring.seg.2 hnot
    (fun a ha => hstate a (List.mem_cons_of_mem _ ha)) (by omega), Option.map_some]
  by_cases hex : ∃ a ∈ M, (k.phys.tasks a).ppidT = k.running.ppidT
  · rw [if_pos hex, if_pos (hiff.mpr hex)]
  · rw [if_neg hex, if_neg fun hc => hex (hiff.mp hc)]

/-! ### Parents over runs -/

/-- **The invariant of the parents**, for the tasks `L` on the ring. -/
def Related (s : Family) (L : List Nat) : Prop :=
  ∀ a ∈ L, 0 ≤ s.parent a ∧ s.parent a < (s.kernel.phys.tasks a).pidT ∧
    ((s.kernel.phys.tasks a).ppidT = s.parent a ∨ (s.kernel.phys.tasks a).ppidT = 0)

theorem quiet_ppidT : Quiet Task.ppidT := ⟨fun _ _ => rfl, fun _ _ => rfl, fun _ => rfl⟩

variable {s s' : Family}

/-- A step of the family is a step of the kernel. -/
theorem step_eq (hs : s.step e = some s') :
    s.numbered.step e = some s'.numbered ∧ s'.parent = s.kernel.parentAfter s.parent e := by
  obtain ⟨n, hn, rfl⟩ := Option.map_eq_some_iff.mp hs
  exact ⟨hn, rfl⟩

/-- A task that stays keeps its parent and its pid. -/
theorem Related.stay (h : Related s L) {a : Nat} (ha : a ∈ L)
    (hparent : s'.parent a = s.parent a)
    (hpid : (s'.kernel.phys.tasks a).pidT = (s.kernel.phys.tasks a).pidT)
    (hppid : (s'.kernel.phys.tasks a).ppidT = (s.kernel.phys.tasks a).ppidT) :
    0 ≤ s'.parent a ∧ s'.parent a < (s'.kernel.phys.tasks a).pidT ∧
      ((s'.kernel.phys.tasks a).ppidT = s'.parent a ∨ (s'.kernel.phys.tasks a).ppidT = 0) := by
  rw [hparent, hpid, hppid]
  exact h a ha

/-- **`fork`** -/
theorem Related.fork (h : Related s L) (hC : Counted s.numbered L)
    (hI : Inv image Γ L D G s.kernel) {u : UserRegs}
    (hok : Numbered.Safe image s.numbered (.fork u)) (hs : s.step (.fork u) = some s') :
    Related s' (s.kernel.ringAfter L (.fork u)) := by
  obtain ⟨hn, hparent⟩ := step_eq hs
  obtain ⟨⟨pid, k'⟩, hf, hk'⟩ := Option.map_eq_some_iff.mp hn
  have hkern : s'.kernel = k' := by rw [kernel, ← hk']
  have hx : k'.phys.exhausted = false := hok.2.2 k' (by
    rw [Kernel.step, hf, Option.map_some])
  obtain ⟨hids, hpidT, -⟩ := hI.fork_ids hf hx
  obtain ⟨hkeep, root, rsp, mmap, hnew⟩ := hI.fork_keeps quiet_ppidT.unlinked hf hx
  obtain ⟨M, rfl⟩ := hI.ring.exists_tail
  obtain ⟨Γ', G', hI'⟩ := hI.fork hf hx
  have hnd := hI'.ring.nodup
  have hcount := hC.next hok.1.few
  have hbound := hC.bound s.kernel.runningThread List.mem_cons_self
  rw [Kernel.ringAfter]
  intro a ha
  rw [Kernel.parentAfter] at hparent
  generalize kernbase + s.kernel.phys.kmalloc.1 = t at hpidT hnew hnd hparent ha
  have ha' : a = t ∨ a ∈ s.kernel.runningThread :: M := by
    simp only [List.take_succ_cons, List.take_zero, List.tail_cons, List.mem_append, List.mem_cons,
      List.not_mem_nil, or_false] at ha ⊢
    tauto
  have ht : t ∉ s.kernel.runningThread :: M := by
    simp only [List.nodup_cons, List.mem_cons, not_or] at hnd ⊢
    exact ⟨fun hc => hnd.1.1 hc.symm, hnd.2.1⟩
  rcases ha' with rfl | haL
  · -- the child
    rw [hparent, Function.update_self, hkern, hpidT, hnew]
    have hrun : 1 ≤ s.kernel.running.pidT ∧ s.kernel.running.pidT ≤ s.kernel.pidCount := hbound
    have hsucc : intSucc s.kernel.pidCount = s.kernel.pidCount + 1 := hcount
    exact ⟨by omega, by omega, Or.inl rfl⟩
  · have hne : a ≠ t := fun hc => ht (hc ▸ haL)
    refine h.stay haL ?_ ?_ ?_
    · rw [hparent, Function.update_of_ne hne]
    · rw [hkern]
      exact (hids a haL).1
    · rw [hkern]
      exact hkeep a haL

/-- **`exec`** -/
theorem Related.exec (h : Related s L) (hI : Inv image Γ L D G s.kernel) {path : List UInt8}
    {found : Option (Nat × Nat)} {args envp : List (List UInt8)}
    (hok : Numbered.Safe image s.numbered (.exec path found args envp))
    (hs : s.step (.exec path found args envp) = some s') :
    Related s' (s.kernel.ringAfter L (.exec path found args envp)) := by
  obtain ⟨hn, hparent⟩ := step_eq hs
  obtain ⟨k', hf, hk'⟩ := Option.map_eq_some_iff.mp hn
  have hkern : s'.kernel = k' := by rw [kernel, ← hk']
  have hx : k'.phys.exhausted = false := hok.2.2 k' hf
  have hsound := hok.2.1
  obtain ⟨hids, hpidT, -⟩ := hI.exec_ids hsound hf hx
  obtain ⟨hkeep, ⟨t₀, old, entry, cr3, rsp, fd, mmap, hnew⟩, hnot⟩ :=
    hI.exec_keeps quiet_ppidT.unlinked hsound hf hx
  have hrun := h s.kernel.runningThread hI.running_mem
  have hne : (s.kernel.execLoader found).2.1 ≠ 0 := by
    obtain ⟨⟨elf, size, rfl, helf, hL⟩, hargs, henvp⟩ := hsound
    exact hI.execLoader_ne_zero helf hL hargs henvp hf hx
  rw [Kernel.parentAfter, if_neg hne] at hparent
  rw [Kernel.ringAfter]
  intro a ha
  generalize kernbase + s.kernel.phys.kmalloc.1 = t at hpidT hnew hnot hparent ha
  have ha' : a = t ∨ a ∈ L := by
    rcases List.mem_cons.mp ha with ha | ha
    · exact Or.inl ha
    · right
      split at ha
      · exact ha
      · exact List.mem_of_mem_tail ha
  rcases ha' with rfl | haL
  · -- the new record has the pid and the parent of the caller, and no `ppid_t`
    rw [hparent, Function.update_self, hkern, hpidT, hnew]
    exact ⟨hrun.1, hrun.2.1, Or.inr rfl⟩
  · have hat : a ≠ t := fun hc => hnot (hc ▸ haL)
    refine h.stay haL ?_ ?_ ?_
    · rw [hparent, Function.update_of_ne hat]
    · rw [hkern]
      exact (hids a haL).1
    · rw [hkern]
      exact hkeep a haL

/-- **The other calls** -/
theorem Related.other (h : Related s L) (hI : Inv image Γ L D G s.kernel)
    (hok : Numbered.Safe image s.numbered e) (hfork : ∀ u, e ≠ .fork u)
    (hexec : ∀ path found args envp, e ≠ .exec path found args envp)
    (hk : s.kernel.step e = some s'.kernel) (hs : s.step e = some s') :
    Related s' (s.kernel.ringAfter L e) := by
  obtain ⟨hids, -⟩ := hI.other_ids hk hfork hexec hok.1.noAccess
  have hkeep := hI.other_keeps quiet_ppidT hk hfork hexec hok.1.noAccess
  have hparent : s'.parent = s.parent := by
    rw [(step_eq hs).2]
    cases e with
    | fork u => exact absurd rfl (hfork u)
    | exec path found args envp => exact absurd rfl (hexec path found args envp)
    | _ => rfl
  intro a ha
  exact h.stay (hids a ha).1 (congrFun hparent a) (hids a ha).2.1 (hkeep a ha).2

/-- The states that a run goes through. -/
def Good (image : Nat) (s : Family) : Prop :=
  ∃ Γ L D G, Inv image Γ L D G s.kernel ∧ Counted s.numbered L ∧ Related s L

/-- **One step.** -/
theorem Good.step (h : Good image s) (hok : Numbered.Safe image s.numbered e)
    (hs : s.step e = some s') : Good image s' := by
  obtain ⟨Γ, L, D, G, hI, hC, hR⟩ := h
  have hn := (step_eq hs).1
  obtain ⟨Γ', D', G', hI', hadv⟩ := hC.step hI hok hn
  refine ⟨Γ', _, D', G', hI', hadv.counted, ?_⟩
  have hother : ∀ (_ : ∀ u, e ≠ .fork u) (_ : ∀ path found args envp,
      e ≠ .exec path found args envp), Related s' (s.kernel.ringAfter L e) :=
    fun hfork hexec => hR.other hI hok hfork hexec (hC.other hI hok.1 hfork hexec hn).2 hs
  cases e with
  | fork u => exact hR.fork hC hI hok hs
  | exec path found args envp => exact hR.exec hI hok hs
  | _ => exact hother (by simp) (by simp)

/-! ### waitpid(-1) -/

/-- Pids on the ring are small numbers, and a parent is none of its children. -/
theorem word_ne_pidWord (hC : Counted s.numbered L) (hR : Related s L)
    (hI : Inv image Γ L D G s.kernel) {a : Nat} (ha : a ∈ L)
    (hchild : s.parent a = s.kernel.running.pidT) :
    word s.kernel.running.ppidT ≠ s.kernel.pidWord a := by
  have hr := hR s.kernel.runningThread hI.running_mem
  have hr' : s.parent s.kernel.runningThread < s.kernel.running.pidT := hr.2.1
  have hp : s.kernel.running.ppidT = s.parent s.kernel.runningThread ∨
    s.kernel.running.ppidT = 0 := hr.2.2
  have hca := (hR a ha).2.1
  have hb := (hC.bound a ha).2
  have hcount := hC.count
  have hfew := hC.few
  have hb' : (s.kernel.phys.tasks a).pidT ≤ s.numbered.kernel.pidCount := hb
  rw [word, Kernel.pidWord]
  omega

/-- **`waitpid(-1)` in a good state** is right exactly where no task shares the `ppid_t` of the
caller and the caller has no child. -/
theorem Good.waits_iff (h : Good image s) : s.WaitsForChildren ↔ s.Childless := by
  obtain ⟨Γ, L, D, G, hI, hC, hR⟩ := h
  have hwait := waitpid_any hI hC.state
  have hring : ∀ a, s.kernel.OnRing a ↔ a ∈ L := fun a => hI.onRing_iff
  constructor
  · intro hw
    have hnone : ¬ ∃ a, s.IsChild a := by
      intro hex
      obtain ⟨a, ⟨ha, hchild⟩, hval⟩ := hw.found hex
      rw [hwait, Option.some_inj] at hval
      split at hval
      · -- what is returned is the pid of the parent of the caller, or zero
        exact word_ne_pidWord hC hR hI ((hring a).mp ha) hchild (congrArg Prod.snd hval)
      · exact absurd (congrArg Prod.fst hval) (show (0 : Nat) ≠ 1 by decide)
    refine ⟨hnone, fun a ha hne hp => ?_⟩
    have hval := hw.none hnone
    rw [hwait, Option.some_inj, if_pos ⟨a, (hring a).mp ha, hne, hp⟩] at hval
    exact absurd (congrArg Prod.fst hval) (show (1 : Nat) ≠ 0 by decide)
  · rintro ⟨hnone, hsib⟩
    refine ⟨fun hex => absurd hex hnone, fun _ => ?_⟩
    rw [hwait, if_neg]
    rintro ⟨a, ha, hne, hp⟩
    exact hsib a ((hring a).mpr ha) hne hp

/-- The shell alone has no parent. -/
theorem good_of_shell (h : ShellAlone image k) (hpp : k.running.ppidT = 0) :
    Good image ⟨⟨k, [], 0⟩, fun _ => 0⟩ := by
  obtain ⟨Γ, L, D, G, hI, hC⟩ := h.good
  obtain ⟨⟨Γ₀, G₀, hI₀⟩, hpid, -, -⟩ := h
  obtain rfl : [k.runningThread] = L := hI₀.ring.unique hI.ring
  refine ⟨Γ, _, D, G, hI, hC, fun a ha => ?_⟩
  obtain rfl := List.mem_singleton.mp ha
  have hpid' : (k.phys.tasks k.runningThread).pidT = 1 := hpid
  exact ⟨Int.le_refl 0, by rw [kernel, hpid']; exact Int.one_pos, Or.inr hpp⟩

theorem good_of_run {es : List Event} (h : Good image s)
    (hr : Run step (fun s e => Numbered.Safe image s.numbered e) s es s') : Good image s' :=
  hr.invariant h fun _ _ _ hgood hok hs => hgood.step hok hs

theorem shellAt_alone : ShellAlone 0x1000 (shellAt [pageVma 0x400000] 0x400000) ∧
    (shellAt [pageVma 0x400000] 0x400000).running.ppidT = 0 := by
  have hm : UserPages [pageVma 0x400000] := userPages_pageVma (by decide)
  obtain ⟨Γ, hI, -, -, -, hrun⟩ := shellAt_inv hm (show pml4Index 0x400000 < 511 by decide)
  exact ⟨⟨⟨Γ, _, hI⟩, by rw [hrun]; rfl, by rw [hrun]; rfl, rfl⟩, by rw [hrun]; rfl⟩

end Family

end Sbunix
