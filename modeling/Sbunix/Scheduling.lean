import Sbunix.System

/-!
# Switching tasks and leaving the ring

The steps that change the run ring without adding to it: `runNextTask`, and `exit`, `exitpid` and
`kill`, which release an address space, take the record off the ring and put it on the delete
queue. Each of them keeps the invariant, with the ring read in a new order or without one task.
-/

namespace Sbunix

open ByteMem Chain

variable {image : Nat} {Γ Γ' : Nat → Use} {L L' M D D' G : List Nat} {k k' : Kernel} {x r : Nat}

/-- **Relinking.** The invariant goes over to other links, as soon as they make a ring and a
queue. -/
theorem Inv.relink (h : Inv image Γ L D G k) (hs : k.phys.Relinked k'.phys)
    (hp : k'.pml4 = k.pml4) (hL : ∀ a ∈ L', a ∈ L) (hD : ∀ a ∈ L' ++ D', a ∈ L ++ D)
    (hnd : (L' ++ D').Nodup) (hring : Ring k'.phys.next k'.runningThread L')
    (hqueue : Seg k'.phys.next k'.deleteQueue D' 0) (hcr3 : k'.cr3 = k'.running.regs.cr3)
    (hinit : ∃ a ∈ L', (k.phys.tasks a).pidT = 1) : Inv image Γ L' D' G k' where
  toSpaces := hp ▸ h.toSpaces.relink hs hL hD fun _ ha => List.mem_append_left _ ha
  ring := hring
  queue := hqueue
  nodup := hnd
  cr3 := hcr3
  init := by
    obtain ⟨a, ha, hpid⟩ := hinit
    exact ⟨a, ha, (hs.same a).pidT.trans hpid⟩

/-- The block before a switch writes to the registers of the task only. -/
theorem Kernel.activate_relinked (k : Kernel) (a : Nat) :
    k.phys.Relinked (k.activate a).phys ∧ (k.activate a).phys.next = k.phys.next ∧
      (k.activate a).runningThread = k.runningThread ∧
      (k.activate a).deleteQueue = k.deleteQueue ∧ (k.activate a).pml4 = k.pml4 := by
  unfold Kernel.activate
  dsimp only
  split
  · exact ⟨k.phys.relinked_setTask ⟨rfl, rfl, rfl, rfl, rfl⟩, k.phys.next_setTask_of_eq rfl, rfl,
      rfl, rfl⟩
  · exact ⟨k.phys.relinked_setTask ⟨rfl, rfl, rfl, rfl, rfl⟩, k.phys.next_setTask_of_eq rfl, rfl,
      rfl, rfl⟩

@[simp] theorem Kernel.activate_exhausted (k : Kernel) (a : Nat) :
    (k.activate a).phys.exhausted = k.phys.exhausted :=
  (k.activate_relinked a).1.exhausted

/-! ### The timer -/

/-- **`runNextTask` returns**, and has written to records only. -/
theorem Inv.runNextTask_eq (h : Inv image Γ L D G k) (regs : SwitchRegs) :
    ∃ k₂ : Kernel, k.runNextTask regs = some (k₂.moveToNextProcess (k.phys.next k.runningThread)) ∧
      k.phys.Relinked k₂.phys ∧ k₂.phys.next = k.phys.next ∧
      k₂.runningThread = k.phys.next k.runningThread ∧ k₂.deleteQueue = k.deleteQueue ∧
      k₂.pml4 = k.pml4 := by
  unfold Kernel.runNextTask
  dsimp only
  set k₁ := k.modifyTask k.runningThread _ with hk₁
  have h₁ : k.phys.Relinked k₁.phys := k.phys.relinked_setTask ⟨rfl, rfl, rfl, rfl, rfl⟩
  have hn₁ : k₁.phys.next = k.phys.next := k.phys.next_setTask_of_eq rfl
  set next := k₁.phys.next k₁.runningThread with hnext
  have hnext' : next = k.phys.next k.runningThread := by
    rw [hnext, hn₁, hk₁]
    rfl
  set k₂ := { k₁ with runningThread := next }.activate next with hk₂
  obtain ⟨h₂, hn₂, hr₂, hd₂, hp₂⟩ := Kernel.activate_relinked { k₁ with runningThread := next } next
  rw [← hk₂] at h₂ hn₂ hr₂ hd₂ hp₂
  have hs₂ : k.phys.Relinked k₂.phys := h₁.trans h₂
  have hmem : next ∈ L := hnext' ▸ h.ring.next_mem h.ring.mem
  -- no alarm is due
  have halarm : ¬ (k₂.phys.tasks next).currAlarmCount > (k₂.phys.tasks next).expectedAlarmCount := by
    rw [(hs₂.same next).curr, (hs₂.same next).expected]
    exact Nat.not_lt.mpr (h.alarms next hmem)
  rw [if_neg halarm]
  refine ⟨k₂, ?_, hs₂, hn₂.trans hn₁, hr₂.trans hnext', hd₂, hp₂⟩
  simp only [Option.bind_eq_bind, Option.bind_some, Option.pure_def, hnext']

/-- **`runNextTask`** reads the ring from the next task. -/
theorem Inv.runNextTask (h : Inv image Γ (r :: M) D G k) {regs : SwitchRegs}
    (hs : k.runNextTask regs = some k') :
    Inv image Γ (M ++ [r]) D G k' ∧ k.phys.Relinked k'.phys := by
  obtain rfl := h.ring.head
  obtain ⟨k₂, hk₂, hs₂, hn₂, hr₂, hd₂, hp₂⟩ := h.runNextTask_eq regs
  obtain rfl : k₂.moveToNextProcess (k.phys.next k.runningThread) = k' :=
    Option.some.inj (hk₂.symm.trans hs)
  have hring : Ring k₂.phys.next k₂.runningThread (M ++ [k.runningThread]) := by
    rw [hn₂, hr₂]
    exact h.ring.step
  have hperm : (M ++ [k.runningThread]).Perm (k.runningThread :: M) := List.perm_append_comm
  refine ⟨h.relink hs₂ ?_ (fun a ha => hperm.mem_iff.mp ha) (fun a ha => ?_) ?_ hring ?_ ?_ ?_,
    hs₂⟩
  · exact hp₂
  · exact (hperm.append_right D).mem_iff.mp ha
  · exact (hperm.append_right D).nodup_iff.mpr h.nodup
  · change Seg k₂.phys.next k₂.deleteQueue D 0
    rw [hn₂, hd₂]
    exact h.queue
  · change (k₂.phys.tasks (k.phys.next k.runningThread)).regs.cr3 =
      (k₂.phys.tasks k₂.runningThread).regs.cr3
    rw [hr₂]
  · obtain ⟨a, ha, hpid⟩ := h.init
    exact ⟨a, hperm.mem_iff.mpr ha, hpid⟩

/-! ### The delete queue -/

/-- **`addToDeleteQueue`** links a record to the end of the queue. -/
theorem addToDeleteQueue_spec (hq : Seg k.phys.next k.deleteQueue D 0) (hnd : D.Nodup)
    (h0 : 0 ∉ D) (hx : x ∉ D) (hlen : D.length < walkFuel) :
    ∃ k', k.addToDeleteQueue x = some k' ∧ k.phys.Relinked k'.phys ∧
      Seg k'.phys.next k'.deleteQueue (D ++ [x]) 0 ∧
      (∀ a, a ∉ D → a ≠ x → k'.phys.next a = k.phys.next a) ∧
      k'.runningThread = k.runningThread ∧ k'.pml4 = k.pml4 ∧ k'.cr3 = k.cr3 := by
  unfold Kernel.addToDeleteQueue
  rcases List.eq_nil_or_concat D with rfl | ⟨m, p, rfl⟩
  · have hq0 : k.deleteQueue = 0 := hq
    rw [if_pos hq0]
    refine ⟨_, rfl, k.phys.relinked_setNext x 0, ?_, fun a _ ha => ?_, rfl, rfl, rfl⟩
    · simp [Seg]
    · simp only [Phys.next_setNext, Function.update_of_ne ha]
  · rw [List.concat_eq_append] at hq hnd h0 hx hlen ⊢
    have hp : p ∉ m := fun hc => (List.nodup_append.mp hnd).2.2 p hc p (by simp) rfl
    have hq0 : k.deleteQueue ≠ 0 := by
      rintro hc
      cases hm : m ++ [p] with
      | nil => simp at hm
      | cons y l =>
        have hq' := hq
        rw [hm] at hq' h0
        exact h0 (by rw [← hc, hq'.1]; exact List.mem_cons_self)
    rw [if_neg hq0]
    obtain ⟨hfind, -⟩ := hq.find_last (n := walkFuel) (fun hc => h0 (List.mem_of_mem_tail hc))
      (by simp only [List.length_append, List.length_singleton] at hlen; omega)
    rw [hfind]
    refine ⟨_, rfl, (k.phys.relinked_setNext p x).trans (Phys.relinked_setNext _ x 0), ?_,
      fun a ha hax => ?_, rfl, rfl, rfl⟩
    · simp only [Phys.next_setNext]
      exact hq.snoc hp hx
    · simp only [Phys.next_setNext, Function.update_of_ne hax]
      rw [Function.update_of_ne]
      rintro rfl
      exact ha (by simp)

/-! ### exit and exitpid -/

/-- The ring of `x` without `x`, from the successor of `x` on. -/
def ringWithout (L : List Nat) (x : Nat) : List Nat :=
  (L.dropWhile (· != x)).tail ++ L.takeWhile (· != x)

theorem ringWithout_eq {A B : List Nat} (hx : x ∉ A) : ringWithout (A ++ x :: B) x = B ++ A := by
  have hA : ∀ a ∈ A, (a != x) = true := fun a ha => by
    simp only [bne_iff_ne, ne_eq]
    rintro rfl
    exact hx ha
  have h₁ : (A ++ x :: B).takeWhile (· != x) = A := by
    rw [List.takeWhile_append_of_pos hA]
    simp
  have h₂ : (A ++ x :: B).dropWhile (· != x) = x :: B := by
    rw [List.dropWhile_append_of_pos hA]
    simp
  rw [ringWithout, h₁, h₂, List.tail_cons]

theorem mem_ringWithout (hnd : L.Nodup) (hx : x ∈ L) {a : Nat} :
    a ∈ ringWithout L x ↔ a ∈ L ∧ a ≠ x := by
  obtain ⟨A, B, rfl⟩ := List.append_of_mem hx
  have hA : x ∉ A := fun hc => (List.nodup_append.mp hnd).2.2 x hc x (by simp) rfl
  have hB : x ∉ B := (List.nodup_cons.mp (List.nodup_append.mp hnd).2.1).1
  rw [ringWithout_eq hA]
  simp only [List.mem_append, List.mem_cons]
  constructor
  · rintro (ha | ha)
    · exact ⟨Or.inr (Or.inr ha), fun hc => hB (hc ▸ ha)⟩
    · exact ⟨Or.inl ha, fun hc => hA (hc ▸ ha)⟩
  · rintro ⟨ha | rfl | ha, hne⟩
    · exact Or.inr ha
    · exact absurd rfl hne
    · exact Or.inl ha

/-- Reading the ring from `x`. -/
theorem ringWithout_ring {next : Nat → Nat} (h : Ring next r L) (hx : x ∈ L) :
    Ring next x (x :: ringWithout L x) ∧ (x :: ringWithout L x).Perm L := by
  obtain ⟨A, B, rfl⟩ := List.append_of_mem hx
  have hA : x ∉ A := fun hc => (List.nodup_append.mp h.nodup).2.2 x hc x (by simp) rfl
  rw [ringWithout_eq hA]
  exact ⟨h.rotate, (List.perm_append_comm : (x :: B ++ A).Perm _)⟩

theorem Phys.Relinked.freed {s s' : Phys} (h : s.Relinked s') {task : Nat} {others : List Nat}
    {pages : List (Vma × Nat)} {f : Nat} :
    Freed s' task others pages f ↔ Freed s task others pages f := by
  simp only [Freed, (h.same _).cr3, Phys.mapsTo_congr (h.leaf _ _)]

/-- What `exit` and `exitpid` have done to the kernel when `x` is gone. -/
structure Terminated (x : Nat) (M D : List Nat) (F : Nat → Prop) (k k' : Kernel) : Prop where
  /-- Between two changes of links, an address space is released. -/
  gone : ∃ s₁ s₂, k.phys.Relinked s₁ ∧ Gone F (k.phys.tasks x).regs.cr3 s₁ s₂ ∧
    s₂.Relinked k'.phys
  ring : Ring k'.phys.next k'.runningThread M
  queue : Seg k'.phys.next k'.deleteQueue (D ++ [x]) 0
  cr3 : k'.cr3 = k'.running.regs.cr3
  pml4 : k'.pml4 = k.pml4

/-- **The common body of `exit` and `exitpid`.** -/
theorem Inv.terminated (h : Inv image Γ L D G k) (hx : x ∈ L)
    (hpid : (k.phys.tasks x).pidT ≠ 1) {pages : List (Vma × Nat)}
    (hp : vmaPages (k.phys.tasks x).mmap = some pages) :
    ∃ k', k.terminate x = some k' ∧
      Terminated x (ringWithout L x) D (Freed k.phys x (ringWithout L x) pages) k k' := by
  obtain ⟨hring, hperm⟩ := ringWithout_ring h.ring hx
  have hnd := List.nodup_append.mp h.nodup
  have hMmem : ∀ a, a ∈ ringWithout L x ↔ a ∈ L ∧ a ≠ x := fun a => mem_ringWithout hnd.1 hx
  set M := ringWithout L x with hM
  unfold Kernel.terminate
  -- the task is marked dead
  set k₁ := k.modifyTask x _ with hk₁
  have h₁ : k.phys.Relinked k₁.phys := k.phys.relinked_setTask ⟨rfl, rfl, rfl, rfl, rfl⟩
  have hn₁ : k₁.phys.next = k.phys.next := k.phys.next_setTask_of_eq rfl
  have hI₁ : Inv image Γ L D G k₁ := h.relink h₁ rfl (fun _ ha => ha) (fun _ ha => ha) h.nodup
    (hn₁ ▸ h.ring) (hn₁ ▸ h.queue) (by rw [Kernel.running, (h₁.same _).cr3]; exact h.cr3) h.init
  have hT := hI₁.teardown (hn₁ ▸ hring) hperm
  -- its address space is released
  obtain ⟨s₂, hs₂, htask₂, hgone⟩ := hT.gone
    (by rw [(h₁.same x).cr3]; exact (h.root x hx).2) (by rw [(h₁.same x).mmap, hp])
  have hF : ∀ f, Freed k₁.phys x M pages f → Γ f = .data := fun f hf =>
    hT.freed_data (fun page hm => hT.pages.page (by rw [(h₁.same x).mmap, hp]) hm) hf
  generalize hs₃ : s₂.freePageTables (s₂.tasks x).regs.cr3 = s₃ at hgone
  have htasks : ∀ a ∈ L ++ D, s₃.tasks a = k₁.phys.tasks a := fun a ha => by
    obtain ⟨f, rfl, hf⟩ := h.record a ha
    exact hgone.tasks f fun hc => by simp [hF f hc] at hf
  have hnext : ∀ a ∈ L ++ D, s₃.next a = k.phys.next a := fun a ha => by
    rw [Phys.next, htasks a ha, ← hn₁]
    rfl
  -- there is another task on the ring, and the last one is the predecessor
  obtain ⟨l, p, hlp⟩ : ∃ l p, M = l ++ [p] := by
    rcases List.eq_nil_or_concat M with hnil | ⟨l, p, hlp⟩
    · obtain ⟨a, ha, hapid⟩ := h.init
      have : a ∈ M := (hMmem a).mpr ⟨ha, fun hc => hpid (hc ▸ hapid)⟩
      rw [hnil] at this
      cases this
    · exact ⟨l, p, by rw [hlp, List.concat_eq_append]⟩
  have hMsub : ∀ a ∈ x :: M, a ∈ L := fun a ha => hperm.mem_iff.mp ha
  have hring₃ : Ring s₃.next x (x :: (l ++ [p])) := by
    rw [← hlp]
    exact hring.congr fun a ha => hnext a (List.mem_append_left D (hMsub a ha))
  have hlen := h.length_lt
  have hlenM := hperm.length_eq
  obtain ⟨hfind, hback⟩ := hring₃.find_last (n := walkFuel) (by
    rw [hlp] at hlenM
    simp only [List.length_append, List.length_cons, List.length_nil] at hlen hlenM
    omega)
  have hpM : p ∈ M := by simp [hlp]
  have hxD : x ∉ D := fun hc => hnd.2.2 x hx x hc rfl
  have hMD : ∀ a ∈ M, a ∉ D := fun a ha hc => hnd.2.2 a ((hMmem a).mp ha).1 a hc rfl
  have hx0 : ∀ a ∈ L ++ D, a ≠ 0 := fun a ha => by
    obtain ⟨f, rfl, -⟩ := h.record a ha
    unfold kernbase
    omega
  set k₃ : Kernel := { k₁ with phys := s₃.setNext p (s₃.next x) } with hk₃
  have hn₃ : k₃.phys.next = Function.update s₃.next p (s₃.next x) := s₃.next_setNext p _
  have hq₃ : Seg k₃.phys.next k₃.deleteQueue D 0 := by
    rw [hn₃]
    refine (h.queue.congr fun a ha => hnext a (List.mem_append_right L ha)).update ?_
    exact hMD p hpM
  obtain ⟨k₄, hk₄, hrel₄, hq₄, hn₄, hrun₄, hp₄, hc₄⟩ := addToDeleteQueue_spec (x := x) hq₃ hnd.2.1
    (fun hc => hx0 0 (List.mem_append_right L hc) rfl) hxD
    (by simp only [List.length_append] at hlen; omega)
  set n := s₃.next x with hn
  obtain ⟨h₅, hn₅, -, hd₅, hp₅⟩ := Kernel.activate_relinked k₄ n
  have hring' : Ring k₄.phys.next n M := by
    rw [hlp]
    refine Ring.congr (hn₃ ▸ hring₃.remove) fun a ha => hn₄ a (hMD a (hlp ▸ ha)) ?_
    exact ((hMmem a).mp (hlp ▸ ha)).2
  refine ⟨{ k₄.activate n with runningThread := n }.moveToNextProcess n, ?_,
    ⟨⟨k₁.phys, s₃, h₁, ?_, ?_⟩, ?_, ?_, ?_, ?_⟩⟩
  · have hpred : ({ k₁ with phys := s₃ } : Kernel).findPred x x = some p := hfind
    simp only [hs₂, Option.bind_eq_bind, Option.bind_some, hs₃, hpred, hback, Option.pure_def]
    rw [← hn, ← hk₃, show k₃.phys.next p = n by rw [hn₃, Function.update_self], hk₄,
      Option.bind_some]
  · rw [← (h₁.same x).cr3]
    rwa [show Freed k.phys x M pages = Freed k₁.phys x M pages from
      funext fun f => propext h₁.freed.symm]
  · exact ((s₃.relinked_setNext p n).trans hrel₄).trans h₅
  · change Ring (k₄.activate n).phys.next n M
    rwa [hn₅]
  · change Seg (k₄.activate n).phys.next (k₄.activate n).deleteQueue _ 0
    rwa [hn₅, hd₅]
  · simp only [Kernel.moveToNextProcess, Kernel.running]
  · change (k₄.activate n).pml4 = k.pml4
    rw [hp₅, hp₄]
    rfl

/-- **The invariant without `x`**, if the sharing test was right for it. -/
theorem Inv.of_terminated (h : Inv image Γ L D G k) (hx : x ∈ L)
    (hpid : (k.phys.tasks x).pidT ≠ 1) {pages : List (Vma × Nat)}
    (hp : vmaPages (k.phys.tasks x).mmap = some pages) (hsafe : k.ReleaseSafe x)
    (hM : ∀ a, a ∈ M ↔ a ∈ L ∧ a ≠ x)
    (ht : Terminated x M D (Freed k.phys x (ringWithout L x) pages) k k') :
    ∃ Γ' G', Inv image Γ' M (D ++ [x]) G' k' ∧ k'.phys.exhausted = k.phys.exhausted := by
  obtain ⟨s₁, s₂, h₁, hgone, h₂⟩ := ht.gone
  have hnd := List.nodup_append.mp h.nodup
  have hT := h.teardown (ringWithout_ring h.ring hx).1 (ringWithout_ring h.ring hx).2
  have hF : ∀ f, Freed k.phys x (ringWithout L x) pages f → Γ f = .data := fun f hf =>
    hT.freed_data (fun page hm => hT.pages.page hp hm) hf
  have hS₁ : Spaces image Γ L (L ++ D) G k.pml4 s₁ :=
    h.toSpaces.relink h₁ (fun _ ha => ha) (fun _ ha => ha) fun _ ha => List.mem_append_left D ha
  rw [← (h₁.same x).cr3] at hgone
  -- what somebody else maps is not released
  have hkeep : ∀ a ∈ M, ∀ v f, pml4Index v < 511 → s₁.MapsTo v (s₁.tasks a).regs.cr3 f →
      ¬ Freed k.phys x (ringWithout L x) pages f := by
    rintro a ha v f hv hmap ⟨⟨page, hm, hpage⟩, hnone⟩
    rw [(h₁.same a).cr3, Phys.mapsTo_congr (h₁.leaf v _)] at hmap
    obtain ⟨b, hb, hbx, hmb⟩ := hsafe pages hp page hm f hpage
      ⟨a, v, h.onRing_iff.mpr ((hM a).mp ha).1, ((hM a).mp ha).2, hv, hmap⟩
    exact hnone b ((mem_ringWithout hnd.1 hx).mpr ⟨h.onRing_iff.mp hb, hbx⟩) hmb
  obtain ⟨hS₂, htasks⟩ := hS₁.gone hgone hF hx (fun a ha => (hM a).mp ha) hkeep
  have hmem : ∀ a ∈ M ++ (D ++ [x]), a ∈ L ++ D := by
    intro a ha
    simp only [List.mem_append, List.mem_singleton, hM] at ha ⊢
    rcases ha with ⟨ha, -⟩ | ha | rfl
    · exact Or.inl ha
    · exact Or.inr ha
    · exact Or.inl hx
  have hS₃ : Spaces image _ M (M ++ (D ++ [x])) _ k.pml4 k'.phys :=
    hS₂.relink h₂ (fun _ ha => ha) hmem fun _ ha => List.mem_append_left _ ha
  refine ⟨_, _, ⟨ht.pml4 ▸ hS₃, ht.ring, ht.queue, ?_, ht.cr3, ?_⟩, ?_⟩
  · refine List.nodup_append.mpr ⟨ht.ring.nodup, ?_, ?_⟩
    · refine List.nodup_append.mpr ⟨hnd.2.1, by simp, ?_⟩
      rintro a ha b hb rfl
      obtain rfl := List.mem_singleton.mp hb
      exact hnd.2.2 a hx a ha rfl
    · rintro a ha b hb rfl
      obtain ⟨haL, hax⟩ := (hM a).mp ha
      rcases List.mem_append.mp hb with hb | hb
      · exact hnd.2.2 a haL a hb rfl
      · exact hax (List.mem_singleton.mp hb)
  · obtain ⟨a, ha, hapid⟩ := h.init
    have haL : a ∈ L ++ D := List.mem_append_left D ha
    refine ⟨a, (hM a).mpr ⟨ha, fun hc => hpid (hc ▸ hapid)⟩, ?_⟩
    rw [(h₂.same a).pidT, htasks a haL, (h₁.same a).pidT, hapid]
  · rw [h₂.exhausted, hgone.exhausted, h₁.exhausted]

/-- A task whose termination comes to its end has page loops that come to theirs. -/
theorem Kernel.vmaPages_of_terminate (hs : k.terminate x = some k') :
    ∃ pages, vmaPages (k.phys.tasks x).mmap = some pages := by
  obtain ⟨s, hs, -⟩ := Option.bind_eq_some_iff.mp hs
  obtain ⟨pages, hp, -⟩ := Option.bind_eq_some_iff.mp hs
  refine ⟨pages, ?_⟩
  rw [← hp]
  simp only [Kernel.modifyTask, Phys.setTask, Function.update_self]

/-- **Ending a task of the ring.** -/
theorem Inv.terminate (h : Inv image Γ L D G k) (hx : x ∈ L)
    (hpid : (k.phys.tasks x).pidT ≠ 1) (hsafe : k.ReleaseSafe x) (hs : k.terminate x = some k') :
    ∃ Γ' G', Inv image Γ' (ringWithout L x) (D ++ [x]) G' k' ∧
      k'.phys.exhausted = k.phys.exhausted := by
  obtain ⟨pages, hp⟩ := Kernel.vmaPages_of_terminate hs
  obtain ⟨k'', hk'', ht⟩ := h.terminated hx hpid hp
  obtain rfl : k' = k'' := Option.some.inj (hs.symm.trans hk'')
  exact h.of_terminated hx hpid hp hsafe
    (fun a => mem_ringWithout (List.nodup_append.mp h.nodup).1 hx) ht

/-- **`exit`.** -/
theorem Inv.exit (h : Inv image Γ L D G k)
    (hsafe : k.running.pidT ≠ 1 → k.ReleaseSafe k.runningThread) (hs : k.exit = some k') :
    ∃ Γ' G', Inv image Γ' (if k.running.pidT = 1 then L else ringWithout L k.runningThread)
      (if k.running.pidT = 1 then D else D ++ [k.runningThread]) G' k' ∧
      k'.phys.exhausted = k.phys.exhausted := by
  unfold Kernel.exit at hs
  split at hs
  · next hpid =>
    obtain rfl := Option.some.inj hs
    rw [if_pos hpid, if_pos hpid]
    exact ⟨Γ, G, h, rfl⟩
  · next hpid =>
    rw [if_neg hpid, if_neg hpid]
    exact h.terminate h.running_mem hpid (hsafe hpid) hs

/-- The search of `exitpid` on the ring. -/
theorem Inv.exitpid_find (h : Inv image Γ L D G k) {pid : Int} (hpid : pid ≠ 1) :
    ∃ x ∈ L, find k.phys.next (fun a => (k.phys.tasks a).pidT == pid || a == k.runningThread)
        walkFuel (k.phys.next k.runningThread) = some x ∧
      k.exited pid = if (k.phys.tasks x).pidT = pid then some x else none := by
  obtain ⟨M, rfl⟩ := h.ring.exists_tail
  have hnd := List.nodup_cons.mp h.ring.nodup
  have hlen := h.length_lt
  simp only [List.length_append, List.length_cons] at hlen
  simp only [Kernel.exited, if_neg hpid, h.others_eq]
  -- the list the search runs through ends with the running task, where it stops
  have hstep := h.ring.step
  obtain ⟨A, x, B, hAB, hstop, hbefore⟩ := exists_first
    (q := fun a => (k.phys.tasks a).pidT = pid ∨ a = k.runningThread)
    (l := M ++ [k.runningThread]) (p := k.runningThread) (by simp) (Or.inr rfl)
  have hseg : Seg k.phys.next (k.phys.next k.runningThread) A x := by
    have := hstep.seg
    rw [hAB] at this
    obtain ⟨b, h₁, h₂⟩ := seg_append.mp this
    exact h₂.1 ▸ h₁
  have hlenA : A.length < walkFuel := by
    have := congrArg List.length hAB
    simp only [List.length_append, List.length_cons, List.length_nil] at this
    omega
  refine ⟨x, ?_, find_of_seg hseg (fun y hy => ?_) ?_ hlenA, ?_⟩
  · have : x ∈ M ++ [k.runningThread] := by rw [hAB]; simp
    simpa [or_comm] using this
  · have := hbefore y hy
    simpa using this
  · simpa using hstop
  · rw [hAB, List.find?_append, List.find?_eq_none.mpr fun y hy => ?_, Option.none_or,
      List.find?_cons]
    · split
      · next hpx => rw [if_pos (by simpa using hpx)]
      · next hpx =>
        have hpx' : (k.phys.tasks x).pidT ≠ pid := by simpa using hpx
        rw [if_neg hpx']
        -- then it is the running task, behind which nothing comes
        have hxr : x = k.runningThread := hstop.resolve_left hpx'
        have hB : B = [] := by
          rcases List.eq_nil_or_concat B with hB | ⟨B', b, hB⟩
          · exact hB
          · rw [List.concat_eq_append] at hB
            have h₁ : M ++ [k.runningThread] = (A ++ x :: B') ++ [b] := by
              rw [hAB, hB]
              simp
            obtain ⟨rfl, -⟩ := List.append_inj' h₁ rfl
            exact absurd (by simp [hxr]) hnd.1
        simp [hB]
    · have := (not_or.mp (hbefore y hy)).1
      simpa using this

/-- **`exitpid`.** -/
theorem Inv.exitpid (h : Inv image Γ L D G k) {pid : Int}
    (hsafe : ∀ a, k.exited pid = some a → k.ReleaseSafe a) (hs : k.exitpid pid = some k') :
    ∃ Γ' G', Inv image Γ' ((k.exited pid).elim L (ringWithout L))
      ((k.exited pid).elim D fun x => D ++ [x]) G' k' ∧
      k'.phys.exhausted = k.phys.exhausted := by
  unfold Kernel.exitpid at hs
  split at hs
  · next hpid =>
    obtain rfl := Option.some.inj hs
    rw [show k.exited pid = none by simp [Kernel.exited, hpid]]
    exact ⟨Γ, G, h, rfl⟩
  · next hpid =>
    obtain ⟨x, hx, hfind, hex⟩ := h.exitpid_find hpid
    rw [hfind, Option.bind_eq_bind, Option.bind_some] at hs
    split at hs
    · next hne =>
      obtain rfl := Option.some.inj hs
      rw [hex, if_neg hne]
      exact ⟨Γ, G, h, rfl⟩
    · next heq =>
      have hxpid : (k.phys.tasks x).pidT = pid := not_not.mp heq
      rw [if_pos hxpid] at hex
      rw [hex]
      exact h.terminate hx (hxpid ▸ hpid) (hsafe x hex) hs

/-! ### kill -/

/-- The loop of `kill` ends at the task `b` in front of the first task `x` behind the running one
that has the pid, or in front of the running one. -/
theorem Inv.kill_find {M : List Nat} (h : Inv image Γ (k.runningThread :: M) D G k) (pid : Nat) :
    ∃ A x B l b, M ++ [k.runningThread] = A ++ x :: B ∧ k.runningThread :: A = l ++ [b] ∧
      k.phys.next b = x ∧ (x = k.runningThread ∨ k.pidWord x = pid) ∧
      (∀ a ∈ A, ¬ (k.pidWord a == pid) = true) ∧
      find k.phys.next
        (fun a => k.phys.next a == k.runningThread || ((k.phys.tasks (k.phys.next a)).pidT %
          2 ^ 64).toNat == pid) walkFuel k.runningThread = some b := by
  have hlen := h.length_lt
  simp only [List.length_append, List.length_cons] at hlen
  have hstep := h.ring.step
  obtain ⟨A, x, B, hAB, hstop, hbefore⟩ := exists_first
    (q := fun a => a = k.runningThread ∨ k.pidWord a = pid)
    (l := M ++ [k.runningThread]) (p := k.runningThread) (by simp) (Or.inl rfl)
  obtain ⟨l, p, hlp⟩ : ∃ l p, k.runningThread :: A = l ++ [p] := by
    rcases List.eq_nil_or_concat (k.runningThread :: A) with hnil | ⟨l, p, hlp⟩
    · cases hnil
    · exact ⟨l, p, by rw [hlp, List.concat_eq_append]⟩
  have hseg : Seg k.phys.next k.runningThread (l ++ [p]) x := by
    have := hstep.seg
    rw [hAB] at this
    obtain ⟨b, h₁, h₂⟩ := seg_append.mp this
    rw [← hlp]
    exact ⟨rfl, h₂.1 ▸ h₁⟩
  obtain ⟨b, hl, hpb⟩ := seg_append.mp hseg
  obtain rfl : b = p := hpb.1
  have hback : k.phys.next b = x := hpb.2
  refine ⟨A, x, B, l, b, hAB, hlp, hback, hstop, fun a ha => ?_,
    find_of_seg hl (fun y hy => ?_) ?_ ?_⟩
  · simpa using (not_or.mp (hbefore a ha)).2
  · -- the successor of a node before the last one lies in `A`
    have hyA := hseg.next_mem_tail hy
    rw [← hlp, List.tail_cons] at hyA
    have := hbefore _ hyA
    simpa [Kernel.pidWord] using this
  · rw [hback]
    simpa [Kernel.pidWord] using hstop
  · have h₁ := congrArg List.length hlp
    have h₂ := congrArg List.length hAB
    simp only [List.length_append, List.length_cons, List.length_nil] at h₁ h₂
    omega

/-- **`kill`** takes its victim off behind the predecessor it has found. -/
theorem Inv.kill (h : Inv image Γ L D G k) {pid : Nat}
    (hsafe : ∀ a, k.killed pid = some a → k.ReleaseSafe a) (hs : k.kill pid = some k') :
    ∃ Γ' G', Inv image Γ' ((k.killed pid).elim L L.erase)
      ((k.killed pid).elim D fun x => D ++ [x]) G' k' ∧
      k'.phys.exhausted = k.phys.exhausted := by
  unfold Kernel.kill at hs
  split at hs
  · next hpid =>
    obtain rfl := Option.some.inj hs
    rw [show k.killed pid = none by simp [Kernel.killed, hpid]]
    exact ⟨Γ, G, h, rfl⟩
  next hpid =>
  obtain ⟨M, rfl⟩ := h.ring.exists_tail
  have hnd := List.nodup_append.mp h.nodup
  have hndr := List.nodup_cons.mp hnd.1
  have hlen := h.length_lt
  simp only [List.length_append, List.length_cons] at hlen
  simp only [Kernel.killed, if_neg hpid, h.others_eq] at hsafe ⊢
  -- the predecessor of the first match, or the last task
  obtain ⟨A, x, B, l, b, hAB, hlp, hback, hstop, hbefore', hfind⟩ := h.kill_find pid
  dsimp only at hs
  rw [hfind, Option.bind_eq_bind, Option.bind_some, hback] at hs
  rcases List.eq_nil_or_concat B with rfl | ⟨B, c, rfl⟩
  · -- nobody has the pid
    obtain ⟨rfl, hxr⟩ := List.append_inj' hAB rfl
    have hxr : x = k.runningThread := (List.cons.inj hxr).1.symm
    rw [if_pos (Or.inl hxr)] at hs
    obtain rfl := Option.some.inj hs
    rw [List.find?_eq_none.mpr hbefore']
    exact ⟨Γ, G, h, rfl⟩
  -- the victim
  obtain ⟨rfl, -⟩ : M = A ++ x :: B ∧ [k.runningThread] = [c] :=
    List.append_inj' (by simpa using hAB) rfl
  have hxM : x ∈ A ++ x :: B := by simp
  have hxL : x ∈ k.runningThread :: (A ++ x :: B) := List.mem_cons_of_mem _ hxM
  have hxr : x ≠ k.runningThread := fun hc => hndr.1 (hc ▸ hxM)
  have hxpid : k.pidWord x = pid := hstop.resolve_left hxr
  have hpid1 : (k.phys.tasks x).pidT ≠ 1 := fun hc => hpid (by
    rw [← hxpid, Kernel.pidWord, hc]
    rfl)
  have hfound : (A ++ x :: B).find? (fun a => k.pidWord a == pid) = some x := by
    rw [List.find?_append, List.find?_eq_none.mpr hbefore', Option.none_or,
      List.find?_cons_of_pos (by simpa using hxpid)]
  rw [hfound] at hsafe ⊢
  rw [if_neg (not_or.mpr ⟨hxr, hpid1⟩)] at hs
  simp only [Option.bind_eq_bind] at hs
  obtain ⟨s₂, hs₂, hs⟩ := Option.bind_eq_some_iff.mp hs
  obtain ⟨pages, hp, -⟩ := Option.bind_eq_some_iff.mp hs₂
  have hring : Ring k.phys.next k.runningThread (l ++ b :: x :: B) := by
    have := h.ring
    rwa [show k.runningThread :: (A ++ x :: B) = l ++ b :: x :: B by
      rw [← List.cons_append, hlp]; simp] at this
  have hT := h.teardown (ringWithout_ring h.ring hxL).1 (ringWithout_ring h.ring hxL).2
  obtain ⟨s₂', hs₂', htask₂, hgone⟩ := hT.gone (h.root x hxL).2 hp
  obtain rfl : s₂ = s₂' := Option.some.inj (hs₂.symm.trans hs₂')
  have hF : ∀ f, Freed k.phys x (ringWithout (k.runningThread :: (A ++ x :: B)) x) pages f →
      Γ f = .data := fun f hf => hT.freed_data (fun page hm => hT.pages.page hp hm) hf
  generalize hs₃ : s₂.freePageTables (s₂.tasks x).regs.cr3 = s₃ at hgone hs
  have htasks : ∀ a ∈ k.runningThread :: (A ++ x :: B) ++ D, s₃.tasks a = k.phys.tasks a :=
    fun a ha => by
      obtain ⟨f, rfl, hf⟩ := h.record a ha
      exact hgone.tasks f fun hc => by simp [hF f hc] at hf
  have hnext : ∀ a ∈ k.runningThread :: (A ++ x :: B) ++ D, s₃.next a = k.phys.next a :=
    fun a ha => by rw [Phys.next, htasks a ha, ← Phys.next]
  -- the ring and the queue after the release
  have hb : b ∈ k.runningThread :: (A ++ x :: B) := by
    have : b ∈ k.runningThread :: A := by rw [hlp]; simp
    rcases List.mem_cons.mp this with hb | hb
    · simp [hb]
    · simp [hb]
  have hring₃ : Ring s₃.next k.runningThread (l ++ b :: x :: B) := hring.congr fun a ha => by
    refine hnext a (List.mem_append_left D ?_)
    rwa [show k.runningThread :: (A ++ x :: B) = l ++ b :: x :: B by
      rw [← List.cons_append, hlp]; simp]
  have hbD : ∀ a ∈ k.runningThread :: (A ++ x :: B), a ∉ D := fun a ha hc =>
    hnd.2.2 a ha a hc rfl
  have hx0 : ∀ a ∈ k.runningThread :: (A ++ x :: B) ++ D, a ≠ 0 := fun a ha => by
    obtain ⟨f, rfl, -⟩ := h.record a ha
    unfold kernbase
    omega
  rw [hnext b (List.mem_append_left D hb), hback] at hs
  set k₃ : Kernel := { k with phys := s₃.setNext b (s₃.next x) } with hk₃
  have hn₃ : k₃.phys.next = Function.update s₃.next b (s₃.next x) := s₃.next_setNext b _
  have hq₃ : Seg k₃.phys.next k₃.deleteQueue D 0 := by
    rw [hn₃]
    exact (h.queue.congr fun a ha => hnext a (List.mem_append_right _ ha)).update (hbD b hb)
  obtain ⟨k₄, hk₄, hrel₄, hq₄, hn₄, hrun₄, hp₄, hc₄⟩ := addToDeleteQueue_spec (x := x) hq₃ hnd.2.1
    (fun hc => hx0 0 (List.mem_append_right _ hc) rfl) (hbD x hxL) (by omega)
  obtain rfl : k' = k₄ := Option.some.inj (hs.symm.trans hk₄)
  have herase : (k.runningThread :: (A ++ x :: B)).erase x = l ++ b :: B := by
    have hxA : x ∉ A := fun hc => (List.nodup_append.mp hndr.2).2.2 x hc x (by simp) rfl
    rw [List.erase_cons_tail (by simpa using Ne.symm hxr), List.erase_append_right _ hxA,
      List.erase_cons_head, ← List.cons_append, hlp]
    simp
  have hM : ∀ a, a ∈ l ++ b :: B ↔ a ∈ k.runningThread :: (A ++ x :: B) ∧ a ≠ x := fun a => by
    rw [← herase, hnd.1.mem_erase_iff, and_comm]
  simp only [Option.elim, herase]
  refine h.of_terminated hxL hpid1 hp (hsafe x rfl) hM
    ⟨⟨k.phys, s₃, .refl _, hgone, (s₃.relinked_setNext b _).trans hrel₄⟩, ?_, hq₄, ?_, ?_⟩
  · rw [hrun₄]
    refine Ring.congr (hn₃ ▸ hring₃.skip) fun a ha => hn₄ a (hbD a ((hM a).mp ha).1) ?_
    exact ((hM a).mp ha).2
  · rw [hc₄, Kernel.running, hrun₄, (hrel₄.same _).cr3, ((s₃.relinked_setNext b _).same _).cr3,
      htasks k.runningThread (List.mem_append_left D List.mem_cons_self)]
    exact h.cr3
  · rw [hp₄]

end Sbunix
