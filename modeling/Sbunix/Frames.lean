import Sbunix.ForkPages

/-!
# Frames in use are never free

`FramesUsed` says of a state that what the tasks on the ring map, and the tables of their trees,
are marked used in `availFrames`. Every run that stays clear of the defects keeps it
(`framesUsed_of_run`). A run that releases a shared page does not: the child of a `fork` that
exits takes the pages it shares with its parent away (`shared_frame_released`).
-/

namespace Sbunix

open ByteMem Chain Runs Placement

variable {image : Nat} {Γ Γ' : Nat → Use} {L M D G : List Nat} {k k' : Kernel} {a f v x : Nat}

/-- **No frame in use is free.** -/
structure FramesUsed (k : Kernel) : Prop where
  pages : ∀ a, k.OnRing a → ∀ v e, pml4Index v < 511 →
    k.phys.leaf v (k.phys.tasks a).regs.cr3 = some e → e &&& present ≠ 0 →
    ¬ IsFree k.phys.availFrames ((e &&& frame) / 4096)
  tables : ∀ a, k.OnRing a → ∀ p f, p.length ≤ 3 → (∀ i ∈ p, i < 512) → (∀ i ∈ p.head?, i < 511) →
    walk (child k.phys.mem) (k.phys.tasks a).regs.cr3 p = some f →
    ¬ IsFree k.phys.availFrames (f / 4096)

theorem Inv.framesUsed (h : Inv image Γ L D G k) : FramesUsed k where
  pages a ha v e hv hl hp := by
    have haL := h.onRing_iff.mp ha
    obtain rfl | ⟨f, hf, hfe⟩ := h.leaves a haL v e hv hl
    · exact absurd (Nat.zero_and _) hp
    · obtain ⟨hal, hlt, hfree⟩ := data_aligned h.typed hf
      rwa [(leaf_frame hal hlt hfe).1]
  tables a ha p f hlen hi hhead hw := by
    have haL := h.onRing_iff.mp ha
    have hd : (userShape k.pml4 G).Dom (k.phys.tasks a).regs.cr3 p :=
      ⟨Or.inr (h.root a haL).1, hlen, hi, hhead⟩
    exact (h.typed.owned f (by simp [h.typed.walk hd hw])).2.2

/-- **What goes wrong otherwise**: a page is released that another task on the ring maps. -/
theorem Inv.not_framesUsed (h : Inv image Γ L D G k) (hx : x ∈ L) {pages : List (Vma × Nat)}
    (hp : vmaPages (k.phys.tasks x).mmap = some pages)
    (ht : Terminated x (ringWithout L x) D (Freed k.phys x (ringWithout L x) pages) k k')
    (hf : Freed k.phys x (ringWithout L x) pages f) (ha : a ∈ L) (hax : a ≠ x)
    (hv : pml4Index v < 511) (hm : k.phys.MapsTo v (k.phys.tasks a).regs.cr3 f) :
    ¬ FramesUsed k' := by
  obtain ⟨s₁, s₂, h₁, hgone, h₂⟩ := ht.gone
  have hnd := (List.nodup_append.mp h.nodup).1
  have hT := h.teardown (ringWithout_ring h.ring hx).1 (ringWithout_ring h.ring hx).2
  have hF : ∀ f, Freed k.phys x (ringWithout L x) pages f → Γ f = .data := fun f hf =>
    hT.freed_data (fun page hm => hT.pages.page hp hm) hf
  have haL' : a ∈ ringWithout L x := (mem_ringWithout hnd hx).mpr ⟨ha, hax⟩
  obtain ⟨hΓ, e, he, hfe⟩ := ((h.leaves a ha).mapsTo_iff h.typed hv).mp hm
  obtain ⟨hal, hlt, -⟩ := data_aligned h.typed hΓ
  obtain ⟨hframe, hodd, -, -⟩ := leaf_frame hal hlt hfe
  have htask : (k'.phys.tasks a).regs.cr3 = (k.phys.tasks a).regs.cr3 := by
    obtain ⟨g, rfl, hg⟩ := h.record a (List.mem_append_left D ha)
    rw [(h₂.same _).cr3, hgone.tasks g (fun hc => by simp [hF g hc] at hg), (h₁.same _).cr3]
  have hleaf : k'.phys.leaf v (k.phys.tasks a).regs.cr3 = some e := by
    rw [h₂.leaf, hgone.leaf (h₁.typed h.typed) hF (Or.inr (h.root a ha).1) hv, h₁.leaf, he]
  intro hU
  refine hU.pages a ((ht.ring.mem_iff_iterate).mp haL') v e hv (by rw [htask, hleaf]) ?_ ?_
  · rw [and_present, hodd]
    decide
  · rw [hframe, h₂.avail, hgone.bits, show f / 4096 * 4096 = f by omega]
    exact Or.inr (Or.inl hf)

/-- The pages of a list of VMAs with the same bounds. -/
theorem vmaPages_congr {mmap mmap' : List Vma} {pages : List (Vma × Nat)}
    (h : mmap'.map (fun v => (v.vStart, v.vEnd)) = mmap.map fun v => (v.vStart, v.vEnd))
    (hp : vmaPages mmap = some pages) :
    ∃ pages', vmaPages mmap' = some pages' ∧
      pages'.map (fun q => (q.1.vEnd, q.2)) = pages.map fun q => (q.1.vEnd, q.2) := by
  induction mmap generalizing mmap' pages with
  | nil =>
    obtain rfl : mmap' = [] := List.map_eq_nil_iff.mp h
    exact ⟨pages, hp, rfl⟩
  | cons vma rest ih =>
    cases mmap' with
    | nil => cases h
    | cons vma' rest' =>
      simp only [List.map_cons, List.cons.injEq, Prod.mk.injEq] at h
      obtain ⟨⟨h₁, h₂⟩, h₃⟩ := h
      simp only [vmaPages, Option.bind_eq_bind, Option.bind_eq_some_iff, Option.pure_def,
        Option.some.injEq] at hp ⊢
      obtain ⟨starts, hs, pages₀, hp₀, rfl⟩ := hp
      obtain ⟨pages', hp', hmap⟩ := ih h₃ hp₀
      refine ⟨_, ⟨starts, by rw [h₁, h₂, hs], pages', hp', rfl⟩, ?_⟩
      simp only [List.map_append, hmap, List.map_map]
      refine congrArg (· ++ _) (List.map_congr_left fun x _ => ?_)
      simp [h₂]

/-! ### Runs from the shell -/

/-- A lookup that finds an entry, and one that finds none. -/
theorem mapsTo_of_leaf {s : Phys} {r e : Nat} (hl : s.leaf v r = some e) (h₁ : e ≠ 2 ^ 64 - 1)
    (h₂ : e ≠ 0) (hf : e &&& frame = f) : s.MapsTo v r f := by
  unfold Phys.MapsTo
  rw [getPhysicalPageAddr_eq, hl]
  exact ⟨h₁, h₂, hf⟩

theorem not_mapsTo_of_leaf {s : Phys} {r : Nat} (hl : ∀ e, s.leaf v r = some e → e = 0) :
    ¬ s.MapsTo v r f := by
  unfold Phys.MapsTo
  rw [getPhysicalPageAddr_eq]
  cases h : s.leaf v r with
  | none => exact fun hc => hc.1 rfl
  | some e => exact fun hc => hc.2.1 (hl e h)

/-- The registers at a timer interrupt. -/
def tickRegs : SwitchRegs := ⟨kernbase + 0x6000 - 40, 0, 0, 0, 0, 0, 0, 0⟩

/-- **The only task forks, the child gets to run, and it exits**: a page that parent and child
share is released, unless it lies at its own physical address. -/
theorem Inv.shared_released (h : Inv image Γ [x] D G k) {u : UserRegs} {pid : Int} (r : SwitchRegs)
    {vma : Vma} {w e : Nat} (hs : k.fork u = some (pid, k')) (hx : k'.phys.exhausted = false)
    (hpid : intSucc k.pidCount ≠ 1) (hvp : vmaPages k.running.mmap = some [(vma, w)])
    (hstack : vma.vEnd ≠ stackTop) (hw : pml4Index w < 511) (hΓ : Γ f = .data) (he : e = f + 7)
    (hl : k.phys.leaf w k.running.regs.cr3 = some e) (hf : pml4Index f < 511)
    (hno : ∀ e, k.phys.leaf f k.running.regs.cr3 = some e → e = 0) (hwf : OtherPage w f) :
    ∃ k', Run Kernel.step (fun _ _ => True) k [.fork u, .timer r, .exit] k' ∧ ¬ FramesUsed k' := by
  obtain ⟨Γ₁, root, pages, hI₁, hF⟩ := h.forked hs hx
  obtain rfl : pages = [(vma, w)] := Option.some.inj (hF.vmas.symm.trans hvp)
  have hFm := hF.mmap
  have hFp := hF.pidT
  have hFr := hF.cr3
  generalize kernbase + k.phys.kmalloc.1 = c at hI₁ hFm hFp hFr
  obtain rfl := h.ring.head
  have hal := data_aligned h.typed hΓ
  have hal₁ := data_aligned hI₁.typed (hF.data f hΓ).1
  -- what parent and child have at `w` and at `f`
  have hvis : Visited [(vma, w)] false w :=
    ⟨_, List.mem_singleton_self _, by simp [OtherPage], by simpa using hstack⟩
  have hchild : k'.phys.leaf w root = some (f + 5) := by
    rcases hF.space.visited w f e hw hΓ (Or.inl he) hl ⟨false, hvis⟩ with ⟨-, hl⟩ | ⟨hvis', -⟩
    · exact hl
    · obtain ⟨q, hq, -, hst⟩ := hvis'
      obtain rfl := List.mem_singleton.mp hq
      exact absurd (by simpa using hst) hstack
  have hparent : k'.phys.leaf w k.running.regs.cr3 = some (f + 5) := by
    rw [(hF.parent w hw).1 hvis, hl, Option.map_some, he, (and_makeRdOnly hal.1 hal.2.1).1]
  have hnone : ∀ e, k'.phys.leaf f k.running.regs.cr3 = some e → e = 0 := by
    rw [(hF.parent f hf).2 fun ⟨q, hq, ho, _⟩ => ho (by
      obtain rfl := List.mem_singleton.mp hq
      exact hwf)]
    exact hno
  -- the child runs
  obtain ⟨k₂, hs₂, hrel, -, hrun₂, -, -⟩ := hI₁.runNextTask_eq r
  replace hrel : k'.phys.Relinked (k₂.moveToNextProcess (k'.phys.next k'.runningThread)).phys := hrel
  obtain ⟨hI₂, -⟩ := hI₁.runNextTask hs₂
  generalize k₂.moveToNextProcess (k'.phys.next k'.runningThread) = k₃ at hs₂ hrel hI₂
  have hne : k.runningThread ≠ c := by
    have := (List.nodup_append.mp hI₁.nodup).1
    simp only [List.nodup_cons, List.mem_singleton] at this
    exact this.1
  replace hI₂ : Inv image Γ₁ [c, k.runningThread] D (root :: G) k₃ := hI₂
  have hrun₃ : k₃.runningThread = c := hI₂.ring.head
  -- and ends
  have hmm : (k₃.phys.tasks c).mmap.map (fun v => (v.vStart, v.vEnd)) =
      k.running.mmap.map fun v => (v.vStart, v.vEnd) := by rw [(hrel.same c).mmap, hFm]
  obtain ⟨pages', hp', hmap⟩ := vmaPages_congr hmm hF.vmas
  obtain ⟨q, hq, hqw⟩ : ∃ q ∈ pages', q.2 = w := by
    cases pages' with
    | nil => cases hmap
    | cons q rest =>
      simp only [List.map_cons, List.cons.injEq, Prod.mk.injEq] at hmap
      exact ⟨q, by simp, hmap.1.2⟩
  have hpidc : (k₃.phys.tasks c).pidT ≠ 1 := by rwa [(hrel.same c).pidT, hFp]
  have hothers : ringWithout [c, k.runningThread] c = [k.runningThread] :=
    ringWithout_eq (A := []) (by simp)
  obtain ⟨k₄, hk₄, ht⟩ := hI₂.terminated (x := c) (by simp) hpidc hp'
  have hroot : (k₃.phys.tasks c).regs.cr3 = root := (hrel.same c).cr3.trans hFr
  have hshell : (k₃.phys.tasks k.runningThread).regs.cr3 = k.running.regs.cr3 :=
    (hrel.same _).cr3.trans (hF.same k.runningThread (by simp)).cr3
  obtain ⟨hfr, hodd, hne₁, hne₂⟩ :=
    leaf_frame hal.1 hal.2.1 (Or.inr rfl : f + 5 = f + 7 ∨ f + 5 = f + 5)
  have hfork : k.step (.fork u) = some k' := by rw [Kernel.step, hs, Option.map_some]
  have hexit : k₃.step .exit = some k₄ := by
    rw [Kernel.step, Kernel.exit, Kernel.running, hrun₃, if_neg hpidc, hk₄]
  refine ⟨k₄, .cons trivial hfork (.cons trivial hs₂ (.cons trivial hexit (.nil _))), ?_⟩
  · refine hI₂.not_framesUsed (x := c) (f := f) (a := k.runningThread) (v := w) (by simp) hp' ht
      ⟨⟨q, hq, ?_⟩, ?_⟩ (by simp) hne hw ?_
    · rw [hqw, hroot]
      exact mapsTo_of_leaf (by rw [hrel.leaf, hchild]) hne₁ hne₂ hfr
    · rw [hothers]
      intro a ha
      obtain rfl := List.mem_singleton.mp ha
      rw [hshell]
      exact not_mapsTo_of_leaf fun e he => hnone e (by rwa [← hrel.leaf])
    · rw [hshell]
      exact mapsTo_of_leaf (by rw [hrel.leaf, hparent]) hne₁ hne₂ hfr

end Sbunix
