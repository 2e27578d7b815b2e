import Sbunix.Creation

/-!
# One step of the kernel

Page faults as steps, and the step lemma of the invariant: whatever happens, provided that it
stays clear of the defects and that memory lasts, the invariant holds again, with the ring as
`Kernel.ringAfter` says.
-/

namespace Sbunix

open ByteMem Chain

variable {image : Nat} {Γ Γ' : Nat → Use} {L M D G : List Nat} {k k' : Kernel} {v e f : Nat}
  {s : Phys}

/-! ### Page faults -/

/-- The running task is the only one whose tree has its root. -/
theorem Inv.touchRunning (h : Inv image Γ L D G k)
    (hB : Builds (userShape k.pml4 G) (· = k.running.regs.cr3) k.phys Γ s Γ')
    (hl : Leaves 511 (IsData Γ') s k.running.regs.cr3) : Inv image Γ' L D G { k with phys := s } :=
  h.touch hB fun a _ hW => by rwa [hW]

/-- **Writing to a page** that is neither a table nor a record. -/
theorem Inv.edits (h : Inv image Γ L D G k) (hf : Γ f ≠ .unowned) (hΓ : ∀ r p, Γ f ≠ .table r p)
    (he : Edits k.phys s f) (ht : s.tasks = k.phys.tasks) : Inv image Γ L D G { k with phys := s } := by
  have half := (h.typed.owned f hf).1
  have hn : s.next = k.phys.next := by
    funext a
    rw [Phys.next, Phys.next, ht]
  refine ⟨⟨h.sub, h.record, h.typed.edits he half hΓ, fun a ha => ?_,
    fun a ha b hb hab => ?_, fun a ha v e hv hl => ?_, fun a ha => ?_, fun a ha => ?_, h.image⟩,
    ?_, ?_, h.nodup, ?_, ?_⟩
  · simp only [ht]
    exact h.root a ha
  · simp only [ht] at hab
    exact h.own a ha b hb hab
  · simp only [ht] at hl
    rw [he.leaf h.typed half hΓ (Or.inr (h.root a ha).1) hv] at hl
    exact h.leaves a ha v e hv hl
  · simp only [ht]
    exact h.pages a ha
  · simp only [ht]
    exact h.alarms a ha
  · simp only [hn]
    exact h.ring
  · simp only [hn]
    exact h.queue
  · simp only [Kernel.running, ht]
    exact h.cr3
  · simp only [ht]
    exact h.init

/-- **A page on demand.** -/
theorem Inv.demandZero (h : Inv image Γ L D G k) (hv : pml4Index v < 511)
    (hx : (k.demandZero v).phys.exhausted = false) :
    ∃ Γ' g, NewPage (userShape k.pml4 G) k.running.regs.cr3 v g k.phys (k.demandZero v).phys Γ Γ' ∧
      (∀ x < 4096, (k.demandZero v).phys.mem (g + x) = 0) ∧
      Inv image Γ' L D G (k.demandZero v) := by
  have hmem := h.running_mem
  obtain ⟨Γ', g, hN, hz⟩ := demandZero_spec h.typed
    (Or.inr (h.root _ hmem).1 : (userShape k.pml4 G).Root k.running.regs.cr3)
    (userShape_accepts k.pml4 G _) hv hx
  exact ⟨Γ', g, hN, hz, h.touchRunning hN.builds (hN.leaves (h.leaves _ hmem))⟩

/-- **What a store to a present page does to memory.** Either no other task has the page at that
address, and the entry becomes writable, or the page is copied. -/
inductive Written (Γ : Nat → Use) (M G : List Nat) (v f : Nat) (k : Kernel) (s : Phys)
    (Γ' : Nat → Use) : Prop
  | upgraded (hnone : ∀ a ∈ M, ¬ k.phys.MapsTo v (k.phys.tasks a).regs.cr3 f) (hΓ : Γ' = Γ)
      (ht : Touches (userShape k.pml4 G) k.running.regs.cr3 k.phys s Γ Γ)
      (hleaf : s.leaf v k.running.regs.cr3 = some (f + 7))
      (hother : ∀ w, pml4Index w < 511 → OtherPage v w →
        s.leaf w k.running.regs.cr3 = k.phys.leaf w k.running.regs.cr3)
  | copied (hsome : ∃ a ∈ M, k.phys.MapsTo v (k.phys.tasks a).regs.cr3 f) {g : Nat}
      (hN : NewPage (userShape k.pml4 G) k.running.regs.cr3 v g k.phys s Γ Γ')
      (hcopy : ∀ x < 4096, s.mem (g + x) = k.phys.mem (f + x))

/-- **The copy-on-write branch.** -/
theorem Inv.copyOnWrite (h : Inv image Γ (k.runningThread :: M) D G k) (hv : pml4Index v < 511)
    (hl : k.phys.leaf v k.running.regs.cr3 = some e) (hΓ : Γ f = .data)
    (hfe : e = f + 7 ∨ e = f + 5) (hs : k.copyOnWrite v = some k')
    (hx : k'.phys.exhausted = false) :
    ∃ s Γ', k' = { k with phys := s } ∧ Written Γ M G v f k s Γ' := by
  have hmem := h.running_mem
  have hroot : (userShape k.pml4 G).Root k.running.regs.cr3 := Or.inr (h.root _ hmem).1
  obtain ⟨hal, hlt, -⟩ := data_aligned h.typed hΓ
  obtain ⟨hframe, -, -, -⟩ := leaf_frame hal hlt hfe
  -- the handler finds the frame of the page
  have hphy : k.phys.getPhysicalPageAddr (v &&& frame) k.running.regs.cr3 &&& frame = f := by
    rw [getPhysicalPageAddr_eq, leaf_frame_page, hl]
    exact hframe
  have hvf : pml4Index (v &&& frame) < 511 := by rwa [pml4Index_frame]
  have hnd := List.nodup_cons.mp h.ring.nodup
  have hlen := h.length_lt
  -- it counts the other tasks on the ring that map the frame at the same address
  have hcount := pageSharers_eq (v := v) (f := f) h.ring.seg.2 hnd.1
    (by simp only [List.length_append, List.length_cons] at hlen; omega)
  unfold Kernel.copyOnWrite at hs
  simp only [hphy, hcount, Option.bind_eq_bind, Option.bind_some] at hs
  split at hs
  · next h0 =>
    obtain rfl := Option.some.inj hs
    obtain ⟨ht, hself, hother⟩ := markPageAsRW_spec (b := false) h.typed hroot hvf
    refine ⟨_, Γ, rfl, .upgraded (fun a ha hm => ?_) rfl ht ?_ fun w hw hvw =>
      hother w hw ((otherPage_frame _ _).mpr hvw)⟩
    · have := List.countP_eq_zero.mp h0 a ha
      simp only [decide_eq_true_eq] at this
      exact this hm
    · rw [← leaf_frame_page, hself, leaf_frame_page, hl, Option.map_some]
      obtain ⟨h₁, h₂⟩ := or_writeable (f := f) hal
      rcases hfe with rfl | rfl
      · exact congrArg some h₁
      · exact congrArg some h₂
  · next hne =>
    obtain ⟨a, ha, hm⟩ : ∃ a ∈ M, k.phys.MapsTo v (k.phys.tasks a).regs.cr3 f := by
      by_contra hc
      exact hne (List.countP_eq_zero.mpr fun a ha => by simpa using fun hm => hc ⟨a, ha, hm⟩)
    obtain ⟨dest, hdest, rfl⟩ := Option.map_eq_some_iff.mp hs
    dsimp only at hx
    rw [Phys.memcpy_exhausted] at hx
    obtain ⟨Γ', hN, hd, hcopy⟩ :=
      copyPage_spec h.typed hroot (userShape_accepts k.pml4 G _) hv hΓ hx
    obtain rfl : k.phys.kmalloc.1 = dest := by
      rw [h.cr3, hd] at hdest
      exact Option.some.inj hdest
    exact ⟨_, Γ', rfl, .copied ⟨a, ha, hm⟩ hN hcopy⟩

/-- The invariant after such a store. -/
theorem Inv.written (h : Inv image Γ (k.runningThread :: M) D G k)
    (hΓ : Γ f = .data) (hw : Written Γ M G v f k s Γ') :
    Inv image Γ' (k.runningThread :: M) D G { k with phys := s } := by
  have hl := h.leaves k.runningThread List.mem_cons_self
  rcases hw with ⟨-, rfl, ht, hleaf, hother⟩ | ⟨-, hN, -⟩
  · refine h.touchRunning ((Builds.refl h.typed).touches ht rfl)
      (Leaves.set (S := userShape k.pml4 G) (v := v) hl (fun _ hf => hf) (fun e he => ?_)
        fun w hw hvw => Or.inl (hother w hw hvw))
    exact Or.inr ⟨f, hΓ, Or.inl (Option.some.inj (he.symm.trans hleaf))⟩
  · exact h.touchRunning hN.builds (hN.leaves hl)

/-- A page that the MMU translates is a data page. -/
theorem Inv.present (h : Inv image Γ L D G k) (hv : pml4Index v < 511)
    (ht : k.phys.translate v k.cr3 ≠ none) :
    ∃ e f, k.phys.leaf v k.running.regs.cr3 = some e ∧ Γ f = .data ∧ (e = f + 7 ∨ e = f + 5) := by
  obtain ⟨a, ha⟩ := Option.ne_none_iff_exists'.mp ht
  rw [translate_eq, h.cr3] at ha
  obtain ⟨e, he, ha⟩ := Option.bind_eq_some_iff.mp ha
  obtain rfl | ⟨f, hf, hfe⟩ := h.leaves k.runningThread h.running_mem v e hv he
  · cases ha
  · exact ⟨e, f, he, hf, hfe⟩

/-- The copy-on-write branch is for present pages. -/
theorem faultCase_copyOnWrite {w : Bool}
    (h : k.faultCase v (k.errorCode v w) = .copyOnWrite) : k.phys.translate v k.cr3 ≠ none := by
  intro hn
  have hp : k.errorCode v w % 2 = 0 := by
    simp only [Kernel.errorCode, hn, if_true]
    split <;> rfl
  unfold Kernel.faultCase at h
  simp only [hp] at h
  split_ifs at h
  simp_all

/-- **An access of the running program.** -/
theorem Inv.access (h : Inv image Γ L D G k) {w : Bool} (hok : k.Sound image (.access v w))
    (hs : k.access v w = some k') (hx : k'.phys.exhausted = false) :
    ∃ Γ' D' G', Inv image Γ' (if ¬ k.phys.Permits v k.cr3 w ∧
      k.faultCase v (k.errorCode v w) = .exit ∧ k.running.pidT ≠ 1 then
        ringWithout L k.runningThread else L) D' G' k' := by
  obtain ⟨hv, hsafe⟩ := hok
  unfold Kernel.access at hs
  split at hs
  · next hperm =>
    obtain rfl := Option.some.inj hs
    exact ⟨Γ, D, G, by rwa [if_neg fun hc => hc.1 hperm]⟩
  next hperm =>
  rw [Kernel.hndlrIsr14_eq] at hs
  cases hc : k.faultCase v (k.errorCode v w) with
  | exit =>
    simp only [hc] at hs
    obtain ⟨Γ', G', hI, -⟩ := h.exit (hsafe hperm hc) hs
    by_cases hpid : k.running.pidT = 1
    · rw [if_neg fun hc => hc.2.2 hpid]
      rw [if_pos hpid, if_pos hpid] at hI
      exact ⟨Γ', _, G', hI⟩
    · rw [if_pos ⟨hperm, rfl, hpid⟩]
      rw [if_neg hpid, if_neg hpid] at hI
      exact ⟨Γ', _, G', hI⟩
  | demandZero =>
    simp only [hc] at hs
    obtain rfl := Option.some.inj hs
    obtain ⟨Γ', g, -, -, hI⟩ := h.demandZero hv hx
    exact ⟨Γ', D, G, by rwa [if_neg (by simp)]⟩
  | copyOnWrite =>
    simp only [hc] at hs
    obtain ⟨e, f, hl, hf, hfe⟩ := h.present hv (faultCase_copyOnWrite hc)
    obtain ⟨M, rfl⟩ := h.ring.exists_tail
    obtain ⟨s, Γ', rfl, hw⟩ := h.copyOnWrite hv hl hf hfe hs hx
    exact ⟨Γ', D, G, by simpa using h.written hf hw⟩
  | spin =>
    simp only [hc] at hs
    cases hs

/-! ### One step -/

/-- **The ring after a step**, from the running task on. -/
def Kernel.ringAfter (k : Kernel) (L : List Nat) : Event → List Nat
  | .fork _ => L.take 1 ++ (kernbase + k.phys.kmalloc.1) :: L.tail
  | .exec .. => (kernbase + k.phys.kmalloc.1) :: if L.tail = [] then L else L.tail
  | .exit => if k.running.pidT = 1 then L else ringWithout L k.runningThread
  | .kill pid => (k.killed pid).elim L L.erase
  | .exitpid pid => (k.exited pid).elim L (ringWithout L)
  | .timer _ => L.tail ++ L.take 1
  | .access v w =>
    if ¬ k.phys.Permits v k.cr3 w ∧ k.faultCase v (k.errorCode v w) = .exit ∧
      k.running.pidT ≠ 1 then ringWithout L k.runningThread else L

/-- **The step lemma.** -/
theorem Inv.step (h : Inv image Γ L D G k) {e : Event} (hok : k.Sound image e)
    (hen : k.Enough e) (hs : k.step e = some k') :
    ∃ Γ' D' G', Inv image Γ' (k.ringAfter L e) D' G' k' := by
  have hx := hen k' hs
  obtain ⟨M, rfl⟩ := h.ring.exists_tail
  cases e with
  | fork u =>
    obtain ⟨⟨pid, k''⟩, hf, rfl⟩ := Option.map_eq_some_iff.mp hs
    obtain ⟨Γ', G', hI⟩ := h.fork hf hx
    exact ⟨Γ', D, G', hI⟩
  | exec path found args envp =>
    obtain ⟨Γ', G', hI⟩ := h.exec hok hs hx
    refine ⟨Γ', D, G', ?_⟩
    simp only [Kernel.ringAfter, List.tail_cons]
    by_cases hM : M = []
    · simpa [hM] using hI
    · simpa [hM] using hI
  | exit =>
    obtain ⟨Γ', G', hI, -⟩ := h.exit hok hs
    exact ⟨Γ', _, G', hI⟩
  | kill pid =>
    obtain ⟨Γ', G', hI, -⟩ := h.kill hok hs
    exact ⟨Γ', _, G', hI⟩
  | exitpid pid =>
    obtain ⟨Γ', G', hI, -⟩ := h.exitpid hok hs
    exact ⟨Γ', _, G', hI⟩
  | timer r =>
    exact ⟨Γ, D, G, (h.runNextTask hs).1⟩
  | access v w => exact h.access hok hs hx

end Sbunix
