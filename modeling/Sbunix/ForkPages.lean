import Sbunix.Shell

/-!
# What fork keeps

`Phys.load` reads a byte through the page tables. The child of `fork` reads what the parent read,
in every page that a page loop has visited; a present page that no loop visits is missing in the
child.

## Main results

* `Inv.forked` — the invariant after `fork`, and the address space of the child;
* `fork_pages_survive_iff` — every present user page of the parent is present in the child, with
  the same bytes, exactly if the page loops visit all of them.
-/

namespace Sbunix

open ByteMem Chain

variable {image : Nat} {s s' t : Phys} {Γ Γ' : Nat → Use} {L M D G : List Nat}
  {k k' : Kernel} {v f r : Nat} {pages : List (Vma × Nat)} {u : UserRegs} {pid : Int}

/-- The byte at the user address `v`, if its page is present. -/
def Phys.load (s : Phys) (v cr3 : Nat) : Option UInt8 := (s.translate v cr3).map s.mem

theorem load_of_leaf {e : Nat} (hal : f % 4096 = 0) (hl : s.leaf v r = some e)
    (he : e = f + 7 ∨ e = f + 5) : s.load v r = some (s.mem (f + v % 4096)) := by
  rw [Phys.load, translate_of_leaf hal hl he, Option.map_some]

/-- Good entries load from data pages. -/
theorem Leaves.load_eq_some {S : Shape} (hT : Typed S s Γ) (hl : Leaves S.top (IsData Γ) s r)
    (hv : pml4Index v < S.top) {b : UInt8} :
    s.load v r = some b ↔ ∃ e f, s.leaf v r = some e ∧ Γ f = .data ∧ (e = f + 7 ∨ e = f + 5) ∧
      s.mem (f + v % 4096) = b := by
  constructor
  · intro h
    obtain ⟨a, ha, hb⟩ := Option.map_eq_some_iff.mp h
    have ha' := ha
    rw [translate_eq] at ha'
    obtain ⟨e, he, he'⟩ := Option.bind_eq_some_iff.mp ha'
    obtain rfl | ⟨f, hf, hfe⟩ := hl v e hv he
    · cases he'
    · rw [translate_of_leaf (data_aligned hT hf).1 he hfe] at ha
      obtain rfl := Option.some.inj ha
      exact ⟨e, f, he, hf, hfe, hb⟩
  · rintro ⟨e, f, he, hf, hfe, rfl⟩
    exact load_of_leaf (data_aligned hT hf).1 he hfe

/-- The pages of a child, seen from an earlier start and a later end. -/
theorem ChildSpace.transport {parent child top : Nat} {s₀ t' : Phys} {Γ₀ Γ₁ : Nat → Use}
    (h : ChildSpace pages top parent child s t Γ Γ')
    (hnew : ∀ g, Γ g = .unowned → Γ₀ g = .unowned) (hdata : ∀ g, Γ₀ g = .data → Γ g = .data)
    (hdata' : ∀ g, Γ' g = .data → Γ₁ g = .data ∧ ∀ x, g ≤ x → x < g + 4096 → t'.mem x = t.mem x)
    (hold : ∀ g, Γ₀ g = .data → ∀ x, g ≤ x → x < g + 4096 → s.mem x = s₀.mem x)
    (hpar : ∀ v, pml4Index v < top → s.leaf v parent = s₀.leaf v parent)
    (hleaf : ∀ v, pml4Index v < top → t'.leaf v child = t.leaf v child) :
    ChildSpace pages top parent child s₀ t' Γ₀ Γ₁ := by
  refine ⟨fun v e hv he => ?_, fun v f e hv hΓ hfe he hvis => ?_, fun v hv hor e he => ?_⟩
  · rw [hleaf v hv] at he
    exact (h.leaves v e hv he).mono fun g hg => (hdata' g hg).1
  · rw [← hpar v hv] at he
    rcases h.visited v f e hv (hdata f hΓ) hfe he hvis with ⟨hvis, hl⟩ | ⟨hvis, hg, hl, hcopy⟩
    · exact .shared hvis (by rw [hleaf v hv, hl])
    · rename_i g
      refine .copied hvis ⟨(hdata' g hg.1).1, hnew g hg.2⟩ (by rw [hleaf v hv, hl]) fun x hx => ?_
      rw [(hdata' g hg.1).2 (g + x) (by omega) (by omega), hcopy x hx,
        hold f hΓ (f + x) (by omega) (by omega)]
  · rw [hleaf v hv] at he
    exact h.unvisited v hv (hor.imp_right fun hn e he => hn e (by rwa [← hpar v hv])) e he

/-- **The entries of the parent** after `makeParentCr3asReadOnly`: what a loop outside the stack
visits has become read-only. -/
theorem makeParentCr3asReadOnly_leaf {S : Shape} {mmap : List Vma} (h : Typed S s Γ)
    (htop : S.top = 511) (hr : S.Root r) (hpages : UserPages mmap)
    (hvp : vmaPages mmap = some pages) (hs : s.makeParentCr3asReadOnly mmap r = some s')
    (hv : pml4Index v < S.top) :
    (Visited pages false v → s'.leaf v r = (s.leaf v r).map (· &&& makeRdOnly)) ∧
      (¬ Visited pages false v → s'.leaf v r = s.leaf v r) := by
  obtain ⟨pages', hvp', hs⟩ := Option.bind_eq_some_iff.mp hs
  obtain rfl : pages = pages' := Option.some.inj (hvp.symm.trans hvp')
  obtain rfl := Option.some.inj hs
  clear hs hvp'
  -- the pages that are still to come may protect the entry again
  suffices ∀ (l : List (Vma × Nat)) (t : Phys), (∀ q ∈ l, q ∈ pages) → Typed S t Γ →
      (Visited l false v → (l.foldl (Phys.protectPage r) t).leaf v r =
        (t.leaf v r).map (· &&& makeRdOnly)) ∧
      (¬ Visited l false v → (l.foldl (Phys.protectPage r) t).leaf v r = t.leaf v r) from
    this pages s (fun _ hq => hq) h
  intro l
  induction l with
  | nil => exact fun t _ _ => ⟨fun ⟨q, hq, _⟩ => absurd hq (by simp), fun _ => rfl⟩
  | cons q l ih =>
    intro t hsub hT
    have hq : pml4Index q.2 < S.top := htop ▸ hpages.page hvp (hsub q (by simp))
    obtain ⟨ht, hself, hother⟩ := protectPage_spec (q := q) hT hr hq
    obtain ⟨ih₁, ih₂⟩ := ih _ (fun p hp => hsub p (by simp [hp])) ht.typed
    rw [List.foldl_cons]
    have htwice : ∀ e : Nat, e &&& makeRdOnly &&& makeRdOnly = e &&& makeRdOnly := fun e => by
      rw [Nat.and_assoc, Nat.and_self]
    by_cases hqv : ¬ OtherPage q.2 v ∧ decide (q.1.vEnd = stackTop) = false
    · -- this round protects the entry
      have hne : q.1.vEnd ≠ stackTop := by simpa using hqv.2
      have hnow : (t.protectPage r q).leaf v r = (t.leaf v r).map (· &&& makeRdOnly) := by
        rw [leaf_same_page hqv.1, hself, if_pos hne, leaf_same_page hqv.1]
      refine ⟨fun _ => ?_, fun hn => absurd ⟨q, by simp, hqv⟩ hn⟩
      by_cases hvis : Visited l false v
      · rw [ih₁ hvis, hnow, Option.map_map]
        exact congrArg (Option.map · (t.leaf v r)) (funext htwice)
      · rw [ih₂ hvis, hnow]
    · have hnow : (t.protectPage r q).leaf v r = t.leaf v r := by
        by_cases ho : OtherPage q.2 v
        · exact hother v hv ho
        · have hst : q.1.vEnd = stackTop := by simpa [ho] using hqv
          rw [leaf_same_page ho, hself, if_neg (not_not.mpr hst)]
          exact (leaf_same_page ho r).symm
      have hiff : Visited (q :: l) false v ↔ Visited l false v := by
        constructor
        · rintro ⟨p, hp, hpv⟩
          rcases List.mem_cons.mp hp with rfl | hp
          · exact absurd hpv hqv
          · exact ⟨p, hp, hpv⟩
        · exact fun hvis => hvis.mono fun p hp => List.mem_cons_of_mem q hp
      rw [hiff, ← hnow]
      exact ⟨ih₁, ih₂⟩

/-- Links are not files. -/
theorem setNext_files (s : Phys) (a b c : Nat) :
    ((s.setNext a b).tasks c).fdPointers = (s.tasks c).fdPointers ∧
      ((s.setNext a b).tasks c).fdCount = (s.tasks c).fdCount := by
  by_cases hc : c = a
  · simp only [Phys.setNext, Phys.setTask, hc, Function.update_self, and_self]
  · simp only [Phys.setNext, Phys.setTask, Function.update_of_ne hc, and_self]

/-- **The state after `fork`.** -/
structure Forked (L G : List Nat) (k : Kernel) (Γ : Nat → Use) (pages : List (Vma × Nat))
    (root : Nat) (k' : Kernel) (Γ' : Nat → Use) : Prop where
  vmas : vmaPages k.running.mmap = some pages
  cr3 : (k'.phys.tasks (kernbase + k.phys.kmalloc.1)).regs.cr3 = root
  rootNew : Γ root = .unowned
  pidT : (k'.phys.tasks (kernbase + k.phys.kmalloc.1)).pidT = intSucc k.pidCount
  /-- The child starts with the descriptor table of its parent. -/
  files : (k'.phys.tasks (kernbase + k.phys.kmalloc.1)).fdPointers = k.running.fdPointers ∧
    (k'.phys.tasks (kernbase + k.phys.kmalloc.1)).fdCount = k.running.fdCount
  mmap : (k'.phys.tasks (kernbase + k.phys.kmalloc.1)).mmap.map (fun v => (v.vStart, v.vEnd)) =
    k.running.mmap.map fun v => (v.vStart, v.vEnd)
  space : ChildSpace pages 511 k.running.regs.cr3 root k.phys k'.phys Γ Γ'
  /-- No data page has changed. -/
  data : ∀ g, Γ g = .data → Γ' g = .data ∧
    ∀ x, g ≤ x → x < g + 4096 → k'.phys.mem x = k.phys.mem x
  /-- Of the translations that were there, only those of the parent have. -/
  others : ∀ r ∈ G, r ≠ k.running.regs.cr3 → ∀ v, pml4Index v < 511 →
    k'.phys.leaf v r = k.phys.leaf v r
  parent : ∀ v, pml4Index v < 511 →
    (Visited pages false v → k'.phys.leaf v k.running.regs.cr3 =
      (k.phys.leaf v k.running.regs.cr3).map (· &&& makeRdOnly)) ∧
    (¬ Visited pages false v → k'.phys.leaf v k.running.regs.cr3 =
      k.phys.leaf v k.running.regs.cr3)
  same : ∀ a ∈ L, (k.phys.tasks a).Same (k'.phys.tasks a)

/-- **`fork`**, in detail. -/
theorem Inv.forked (h : Inv image Γ (r :: M) D G k) (hs : k.fork u = some (pid, k'))
    (hx : k'.phys.exhausted = false) :
    ∃ Γ' root pages, Inv image Γ' (r :: (kernbase + k.phys.kmalloc.1) :: M) D (root :: G) k' ∧
      Forked (r :: M) G k Γ pages root k' Γ' := by
  unfold Kernel.fork at hs
  simp only [Option.bind_eq_bind] at hs
  obtain ⟨k₁, hk₁, hs⟩ := Option.bind_eq_some_iff.mp hs
  obtain ⟨s, hmake, hs⟩ := Option.bind_eq_some_iff.mp hs
  simp only [Option.pure_def, Option.some.injEq, Prod.mk.injEq] at hs
  obtain ⟨-, rfl⟩ := hs
  have hx₁ : k₁.phys.exhausted = false := by
    rw [makeParentCr3asReadOnly_exhausted hmake] at hx
    exact hx
  obtain ⟨root, s₁, Γ₁, s₂, Γ₂, Γ', hc⟩ := h.child hk₁ hx₁
  have hI := h.queueChild hc
  obtain rfl := h.ring.head
  set f := k.phys.kmalloc.1 with hf
  set k₂ := k₁.addToQueue (kernbase + f) with hk₂
  have hrel : k₁.phys.Relinked k₂.phys :=
    (k₁.phys.relinked_setNext _ _).trans (Phys.relinked_setNext _ _ _)
  have hrun₂ : k₂.running.regs.cr3 = k.running.regs.cr3 := by
    have h₁ : k₂.runningThread = k.runningThread := hc.same.1
    rw [Kernel.running, h₁, (hrel.same _).cr3]
    obtain ⟨a, ha, hΓ⟩ := h.record k.runningThread (List.mem_append_left D h.running_mem)
    rw [ha, hc.builds.tasks a (by simp [hΓ]), ← ha]
    rfl
  -- the running task loses its right to write
  have hmem := hI.running_mem
  obtain ⟨ht, hl⟩ := makeParentCr3asReadOnly_touches hI.typed rfl
    (Or.inr (hI.root k₂.runningThread hmem).1) (hI.pages k₂.runningThread hmem)
    (hI.leaves k₂.runningThread hmem) hmake
  replace ht : Touches (userShape k₂.pml4 (root :: G)) k₂.running.regs.cr3 k₂.phys s Γ' Γ' := ht
  have hpml4 : k₂.pml4 = k.pml4 := hc.same.2.2.1
  have hB₃ : Builds (userShape k₂.pml4 (root :: G)) (· = k₂.running.regs.cr3) k₂.phys Γ' s Γ' :=
    (Builds.refl hI.typed).touches ht rfl
  have hne : k.running.regs.cr3 ≠ root := by
    intro hcr
    have := h.typed.root (Or.inr (h.root k.runningThread h.running_mem).1 :
      (userShape k.pml4 G).Root k.running.regs.cr3)
    rw [hcr, hc.rootNew] at this
    cases this
  obtain ⟨pages, hvp, hC⟩ := hc.space
  have hleaf₃ : ∀ v, pml4Index v < 511 → s.leaf v root = s₂.leaf v root := fun v hv => by
    rw [hB₃.leaf_other (r := root) hI.typed (Or.inr List.mem_cons_self)
      (fun hc => hne (hrun₂ ▸ hc.symm)) hv, hrel.leaf, hc.leaf v root List.mem_cons_self hv]
  have hdata₃ : ∀ g, Γ' g = .data → ∀ x, g ≤ x → x < g + 4096 → s.mem x = k₁.phys.mem x :=
    fun g hg x hx hx' => by
      rw [hB₃.mem g (by simp [hg]) (by simp [hg]) x hx hx', hrel.mem]
  have hstart : ∀ g, Γ g = .data → ∀ x, g ≤ x → x < g + 4096 → s₁.mem x = k.phys.mem x :=
    fun g hg x hx hx' => hc.start.mem g (by simp [hg]) (by simp [hg]) x hx hx'
  have hstask : s.tasks (kernbase + f) = k₂.phys.tasks (kernbase + f) := by
    obtain ⟨g, hg, hΓ⟩ := hI.record (kernbase + f) (by simp)
    obtain rfl : f = g := Nat.add_left_cancel hg
    exact hB₃.tasks f (by simp [hΓ])
  have hchild : (k₁.phys.tasks (kernbase + f)).Same (s.tasks (kernbase + f)) := by
    rw [hstask]
    exact hrel.same _
  have hfiles : (s.tasks (kernbase + f)).fdPointers = (k₁.phys.tasks (kernbase + f)).fdPointers ∧
      (s.tasks (kernbase + f)).fdCount = (k₁.phys.tasks (kernbase + f)).fdCount := by
    rw [hstask, hk₂, Kernel.addToQueue]
    simp only [setNext_files, and_self]
  refine ⟨Γ', root, pages, hI.touch (W := (· = k₂.running.regs.cr3)) hB₃ fun a ha hW => by
    rw [hW]; exact hl, hvp, ?_, hc.rootNew, ?_, ⟨hfiles.1.trans hc.files.1, hfiles.2.trans
    hc.files.2⟩, ?_, ?_, fun g hg => ⟨hc.builds.data g hg,
      fun x hx hx' => ?_⟩, fun q hq hqr v hv => ?_, fun v hv => ?_, fun a ha => ?_⟩
  · exact hchild.cr3.trans hc.cr3
  · exact hchild.pidT.trans hc.pidT
  · exact (congrArg _ hchild.mmap).trans hc.mmap
  · refine hC.transport (fun g hg => hc.start.new hg) (fun g hg => hc.start.data g hg)
      (fun g hg => ⟨(hc.data g hg).1, fun x hx hx' => ?_⟩) hstart (fun v hv => ?_) hleaf₃
    · rw [hdata₃ g (hc.data g hg).1 x hx hx', (hc.data g hg).2 x hx hx']
    · exact hc.start.leaf_other h.typed (Or.inr (h.root k.runningThread h.running_mem).1) hne hv
  · rw [hdata₃ g (hc.builds.data g hg) x hx hx', hc.builds.mem g (by simp [hg]) (by simp [hg]) x hx
      hx']
  · have hqn : q ≠ root := by
      rintro rfl
      have := h.typed.root (Or.inr hq : (userShape k.pml4 G).Root q)
      rw [hc.rootNew] at this
      cases this
    rw [hB₃.leaf_other (r := q) hI.typed (Or.inr (List.mem_cons_of_mem _ hq))
      (fun hc => hqr (hrun₂ ▸ hc)) hv, hrel.leaf]
    exact hc.builds.leaf_other h.typed (Or.inr hq) hqn hv
  · have hold : k₂.phys.leaf v k.running.regs.cr3 = k.phys.leaf v k.running.regs.cr3 := by
      rw [hrel.leaf]
      exact hc.builds.leaf_other h.typed (Or.inr (h.root k.runningThread h.running_mem).1) hne hv
    have hmm : k₂.running.mmap = k.running.mmap := by
      have h₁ : k₂.runningThread = k.runningThread := hc.same.1
      rw [Kernel.running, h₁, (hrel.same _).mmap]
      obtain ⟨a, ha, hΓ⟩ := h.record k.runningThread (List.mem_append_left D h.running_mem)
      rw [ha, hc.builds.tasks a (by simp [hΓ]), ← ha]
      rfl
    rw [← hold, ← hrun₂]
    exact makeParentCr3asReadOnly_leaf hI.typed rfl (Or.inr (hI.root k₂.runningThread hmem).1)
      (hI.pages k₂.runningThread hmem) (by rw [← hvp, ← hmm]; rfl) hmake hv
  · obtain ⟨g, rfl, hΓ⟩ := h.record a (List.mem_append_left D ha)
    have h₁ : k₁.phys.tasks (kernbase + g) = k.phys.tasks (kernbase + g) :=
      hc.builds.tasks g (by simp [hΓ])
    have h₂ : s.tasks (kernbase + g) = k₂.phys.tasks (kernbase + g) :=
      hB₃.tasks g (by rw [hc.builds.ext g (by simp [hΓ]), hΓ]; simp)
    rw [← h₁]
    change Task.Same _ (s.tasks (kernbase + g))
    rw [h₂]
    exact hrel.same _

/-! ### Survival -/

/-- Every byte of the user half that the caller of `fork` can read is the same in the child. -/
def PagesSurvive (k k' : Kernel) (child : Nat) : Prop :=
  ∀ v b, pml4Index v < 511 → k.phys.load v k.running.regs.cr3 = some b →
    k'.phys.load v (k'.phys.tasks child).regs.cr3 = some b

/-- Some VMA of the running task has `v` on a page that the page loops visit: on the page of
`v_start + i * 0x1000`, for some `i` with `v_start + i * 0x1000 < v_end`. -/
def Kernel.Covers (k : Kernel) (v : Nat) : Prop :=
  ∃ pages, vmaPages k.running.mmap = some pages ∧ ∃ b, Visited pages b v

/-- A page that no loop visits does not survive. -/
theorem Inv.covers_of_survive (h : Inv image Γ L D G k) (hs : k.fork u = some (pid, k'))
    (hx : k'.phys.exhausted = false)
    (hsurv : PagesSurvive k k' (kernbase + k.phys.kmalloc.1)) (hv : pml4Index v < 511)
    (htr : k.phys.translate v k.running.regs.cr3 ≠ none) : k.Covers v := by
  obtain ⟨M, rfl⟩ := h.ring.exists_tail
  obtain ⟨Γ', root, pages, hI, hF⟩ := h.forked hs hx
  obtain ⟨a, ha⟩ := Option.ne_none_iff_exists'.mp htr
  have hb : k.phys.load v k.running.regs.cr3 = some (k.phys.mem a) := by
    rw [Phys.load, ha, Option.map_some]
  have hb' := hsurv v _ hv hb
  rw [hF.cr3] at hb'
  obtain ⟨e, f, he, -, hfe, -⟩ :=
    (Leaves.load_eq_some (S := userShape k'.pml4 (root :: G)) hI.typed hF.space.leaves hv).mp hb'
  refine ⟨pages, hF.vmas, ?_⟩
  by_contra hnone
  have := hF.space.unvisited v hv (Or.inl fun b hvis => hnone ⟨b, hvis⟩) e he
  omega

/-- A page that a loop visits survives. -/
theorem Inv.survive_of_covers (h : Inv image Γ L D G k) (hs : k.fork u = some (pid, k'))
    (hx : k'.phys.exhausted = false)
    (hcov : ∀ v, pml4Index v < 511 → k.phys.translate v k.running.regs.cr3 ≠ none → k.Covers v) :
    PagesSurvive k k' (kernbase + k.phys.kmalloc.1) := by
  obtain ⟨M, rfl⟩ := h.ring.exists_tail
  obtain ⟨Γ', root, pages, hI, hF⟩ := h.forked hs hx
  have hl : Leaves 511 (IsData Γ) k.phys k.running.regs.cr3 :=
    h.leaves k.runningThread h.running_mem
  intro v b hv hb
  obtain ⟨e, f, he, hf, hfe, rfl⟩ :=
    (Leaves.load_eq_some (S := userShape k.pml4 G) h.typed hl hv).mp hb
  have htr : k.phys.translate v k.running.regs.cr3 ≠ none := by
    rw [translate_of_leaf (data_aligned h.typed hf).1 he hfe]
    simp
  obtain ⟨pages', hvp, hvis⟩ := hcov v hv htr
  obtain rfl := Option.some.inj (hF.vmas.symm.trans hvp)
  rw [hF.cr3]
  rcases hF.space.visited v f e hv hf hfe he hvis with ⟨-, hl⟩ | ⟨-, hg, hl, hcopy⟩
  · rw [load_of_leaf (data_aligned h.typed hf).1 hl (Or.inr rfl)]
    rw [(hF.data f hf).2 (f + v % 4096) (by omega) (by omega)]
  · rename_i g
    rw [load_of_leaf (data_aligned hI.typed hg.1).1 hl (Or.inl rfl), hcopy _ (by omega)]

/-- **Every present user page survives `fork` exactly if every one is visited.** -/
theorem fork_pages_survive_iff (h : Inv image Γ L D G k) (hs : k.fork u = some (pid, k'))
    (hx : k'.phys.exhausted = false) :
    PagesSurvive k k' (kernbase + k.phys.kmalloc.1) ↔
      ∀ v, pml4Index v < 511 → k.phys.translate v k.running.regs.cr3 ≠ none → k.Covers v :=
  ⟨fun hsurv _ hv htr => h.covers_of_survive hs hx hsurv hv htr, h.survive_of_covers hs hx⟩

/-! ### A run of fork -/

theorem markPageAsRW_availFrames (s : Phys) (v cr3 : Nat) (b : Bool) :
    (s.markPageAsRW v cr3 b).availFrames = s.availFrames := by
  unfold Phys.markPageAsRW
  split
  · exact s.store64_availFrames _ _
  · rfl

/-- **A round returns**, if the stack is there; it takes four frames at most. -/
theorem copyParentPage_returns {S : Shape} {parent child n : Nat} {q : Vma × Nat}
    (h : Typed S s Γ) (hS : S.Accepts child user) (hc : S.Root child) (hp : S.Root parent)
    (hne : parent ≠ child) (hv : pml4Index q.2 < S.top)
    (hstack : q.1.vEnd = stackTop → s.translate q.2 parent ≠ none) (hx : s.exhausted = false)
    (hn : n + 4 ≤ (freeFrames s.availFrames).card) :
    ∃ s', s.copyParentPage parent parent child q = some s' ∧ s'.exhausted = false ∧
      n ≤ (freeFrames s'.availFrames).card := by
  simp only [Phys.copyParentPage]
  split
  · split
    · refine ⟨_, rfl, ?_⟩
      rw [markPageAsRW_exhausted, markPageAsRW_availFrames]
      exact mapWith_alive_of_le hx (by omega)
    · exact ⟨s, rfl, hx, by omega⟩
  · next hend =>
    have hvf : pml4Index (q.2 &&& frame) < S.top := by rwa [pml4Index_frame]
    obtain ⟨hx₁, hn₁⟩ := kmalloc_alive_of_le (k := n + 3) hx hn
    have hB₁ := (Builds.refl (W := (· = child)) h).taken (kmalloc_taken hx₁).1 (u := .data)
      (by simp) (by simp)
    obtain ⟨hx₂, hn₂⟩ := @mapWith_alive_of_le _ user (q.2 &&& frame) s.kmalloc.1 child n hx₁ hn₁
    generalize s.kmalloc = stack at *
    replace hx₂ : (stack.2.mapPageForUser (q.2 &&& frame) stack.1 child).exhausted = false := hx₂
    obtain ⟨Γ₂, ht, -⟩ := mapPageForUser_spec hB₁.typed hc hS hvf (Function.update_self ..) hx₂
    -- the parent still has its stack
    have hl := (hB₁.touches ht rfl).leaf_other h hp hne hvf
    obtain ⟨src, hsrc⟩ := Option.ne_none_iff_exists'.mp (hstack (not_not.mp hend))
    have hsrc' : ∃ src, (stack.2.mapPageForUser (q.2 &&& frame) stack.1 child).translate
        (q.2 &&& frame) parent = some src := by
      rw [translate_eq] at hsrc
      obtain ⟨e, he, hsrc⟩ := Option.bind_eq_some_iff.mp hsrc
      have hodd : e % 2 = 1 := by
        by_contra hc
        rw [if_neg hc] at hsrc
        cases hsrc
      rw [translate_eq, hl, leaf_frame_page, he, Option.bind_some, if_pos hodd]
      exact ⟨_, rfl⟩
    obtain ⟨src', hsrc'⟩ := hsrc'
    refine ⟨_, by rw [hsrc', Option.map_some], ?_⟩
    rw [Phys.memcpy_exhausted, (memcpy_edits (n := 4096) _ (le_refl stack.1) (by omega)).avail]
    exact ⟨hx₂, hn₂⟩

theorem copyParentCr3Entries_returns {S : Shape} {parent child n : Nat} {mmap : List Vma}
    (h : Typed S s Γ) (htop : S.top = 511) (hS : S.Accepts child user) (hc : S.Root child)
    (hp : S.Root parent) (hne : parent ≠ child) (hpages : UserPages mmap)
    (hlp : Leaves S.top (IsData Γ) s parent) (hvp : vmaPages mmap = some pages)
    (hstack : ∀ q ∈ pages, q.1.vEnd = stackTop → s.translate q.2 parent ≠ none)
    (hx : s.exhausted = false) (hn : n + 4 * pages.length ≤ (freeFrames s.availFrames).card) :
    ∃ s', s.copyParentCr3Entries mmap parent parent child = some s' ∧ s'.exhausted = false ∧
      n ≤ (freeFrames s'.availFrames).card := by
  have hv : ∀ q ∈ pages, pml4Index q.2 < S.top := fun q hq => htop ▸ hpages.page hvp hq
  simp only [Phys.copyParentCr3Entries, hvp, Option.bind_eq_bind, Option.bind_some]
  clear hvp
  induction pages generalizing s Γ with
  | nil => exact ⟨s, rfl, hx, by simpa using hn⟩
  | cons q pages ih =>
    simp only [List.length_cons] at hn
    have hq := hv q (by simp)
    obtain ⟨t, ht, hxt, hnt⟩ := copyParentPage_returns (n := n + 4 * pages.length) h hS hc hp hne hq
      (hstack q (by simp)) hx (by omega)
    obtain ⟨Γ', hB, -⟩ := copyParentPage_spec h hS hc hp hne hq hlp ht hxt
    rw [List.foldlM_cons, ht]
    refine ih hB.typed ((hB.leaves_other h hp hne hlp).mono fun f hf => hB.data f hf)
      (fun p hm hend => ?_) hxt hnt fun p hm => hv p (by simp [hm])
    rw [translate_eq, hB.leaf_other h hp hne (hv p (by simp [hm])), ← translate_eq]
    exact hstack p (by simp [hm]) hend

theorem copyVMA_alive_of_le {mmap : List Vma} {n : Nat} (hx : s.exhausted = false)
    (hn : n + mmap.length ≤ (freeFrames s.availFrames).card) :
    (s.copyVMA mmap).2.exhausted = false ∧
      n ≤ (freeFrames (s.copyVMA mmap).2.availFrames).card := by
  induction mmap generalizing s with
  | nil => exact ⟨hx, by simpa [Phys.copyVMA] using hn⟩
  | cons vma rest ih =>
    simp only [List.length_cons] at hn
    obtain ⟨hx₁, hn₁⟩ := kmalloc_alive_of_le (k := n + rest.length) hx (by omega)
    exact ih hx₁ hn₁

theorem makeParentCr3asReadOnly_availFrames {cr3 : Nat} {mmap : List Vma}
    (hf : s.makeParentCr3asReadOnly mmap cr3 = some s') : s'.availFrames = s.availFrames := by
  obtain ⟨pages, -, hp⟩ := Option.bind_eq_some_iff.mp hf
  obtain rfl := Option.some.inj hp
  clear hf hp
  induction pages generalizing s with
  | nil => rfl
  | cons page pages ih =>
    rw [List.foldl_cons, ih]
    unfold Phys.protectPage
    split
    · exact markPageAsRW_availFrames s _ _ _
    · rfl

/-- **`fork` returns**, if memory lasts and the pages of the stack are there; `m` frames are left. -/
theorem Inv.fork_returns {m : Nat} (h : Inv image Γ L D G k) (u : UserRegs)
    (hvp : vmaPages k.running.mmap = some pages)
    (hq : ∀ q ∈ pages, q.1.vEnd = stackTop → k.phys.translate q.2 k.running.regs.cr3 ≠ none)
    (hx : k.phys.exhausted = false)
    (hn : m + 3 + 4 * pages.length + k.running.mmap.length ≤
      (freeFrames k.phys.availFrames).card) :
    ∃ pid k', k.fork u = some (pid, k') ∧ k'.phys.exhausted = false ∧
      m ≤ (freeFrames k'.phys.availFrames).card := by
  set n := m + 4 * pages.length + k.running.mmap.length with hn'
  obtain ⟨hx₁, hn₁⟩ := kmalloc_alive_of_le (k := n + 2) hx (by omega)
  obtain ⟨hx₂, hn₂⟩ := kmalloc_alive_of_le (k := n + 1) hx₁ hn₁
  rcases hnew : k.phys.kmalloc.2.getNewPML4ForUser k.cr3 with ⟨root, s₀⟩
  have hx₀ : s₀.exhausted = false := by
    have : (k.phys.kmalloc.2.getNewPML4ForUser k.cr3).2.exhausted = false := by
      simpa only [Phys.getNewPML4ForUser, Phys.store64_exhausted] using hx₂
    rwa [hnew] at this
  have hn₀ : n + 1 ≤ (freeFrames s₀.availFrames).card := by
    have : n + 1 ≤
        (freeFrames (k.phys.kmalloc.2.getNewPML4ForUser k.cr3).2.availFrames).card := by
      simpa only [Phys.getNewPML4ForUser, Phys.store64_availFrames] using hn₂
    rwa [hnew] at this
  obtain ⟨Γ₁, hF, hB₁, -, hrun, hcopied⟩ := h.childStart (Kernel.initChild
    (s₀.tasks (kernbase + k.phys.kmalloc.1)) (intSucc k.pidCount)
    ({ k with phys := k.phys.kmalloc.2 } : Kernel).running.pidT u root) hnew hx₀
  set s₁ := s₀.setTask (kernbase + k.phys.kmalloc.1) _ with hs₁
  obtain ⟨s₂, hcopy, hx₂', hn₂'⟩ : ∃ s₂, s₁.copyParentCr3Entries k.running.mmap
      k.running.regs.cr3 k.running.regs.cr3 root = some s₂ ∧ s₂.exhausted = false ∧
      m + k.running.mmap.length + 1 ≤ (freeFrames s₂.availFrames).card := by
    have hmem := h.running_mem
    have hroot : (userShape k.pml4 G).Root k.running.regs.cr3 := Or.inr (h.root _ hmem).1
    -- the tree of the parent is as it was
    have hne : k.running.regs.cr3 ≠ root := by
      intro hc
      have := h.typed.root hroot
      rw [hc, hF.rootNew] at this
      cases this
    refine copyParentCr3Entries_returns hB₁.typed rfl (userShape_accepts k.pml4 (root :: G) root)
      (Or.inr List.mem_cons_self) (Or.inr (List.mem_cons_of_mem root (h.root _ hmem).1)) hne
      (h.pages _ hmem) ((hB₁.leaves_other h.typed hroot hne (h.leaves _ hmem)).mono
        fun f hf => hB₁.data f hf) hvp (fun q hm hend => ?_) hx₀ ?_
    · rw [translate_eq, hB₁.leaf_other h.typed hroot hne ((h.pages _ hmem).page hvp hm),
        ← translate_eq]
      exact hq q hm hend
    · rw [hs₁]
      change _ ≤ (freeFrames s₀.availFrames).card
      omega
  obtain ⟨Γ₂, pages', -, hB₂, -⟩ := hcopied s₂ hcopy hx₂'
  obtain ⟨hx₃, hn₃⟩ := kmalloc_alive_of_le (k := m + k.running.mmap.length) hx₂' hn₂'
  have hB₃ := (hB₁.trans hB₂).taken (kmalloc_taken hx₃).1 (u := .kernel) (by simp) (by simp)
  have hstack : s₂.kmalloc.2.tasks k.runningThread = k.running := by
    obtain ⟨a, ha, hΓ⟩ := h.record k.runningThread (List.mem_append_left D h.running_mem)
    rw [ha, hB₃.tasks a (by simp [hΓ]), ← ha]
    rfl
  obtain ⟨hx₄, hn₄⟩ := @copyVMA_alive_of_le _ k.running.mmap m hx₃ hn₃
  cases hk₁ : ({ k with phys := k.phys.kmalloc.2 } : Kernel).createChildTask
    (kernbase + k.phys.kmalloc.1) u with
  | none =>
    simp only [Kernel.createChildTask, hnew, ← hs₁, hrun] at hk₁
    rw [h.cr3, hcopy] at hk₁
    cases hk₁
  | some k₁ =>
  obtain ⟨hxk₁, hnk₁⟩ : k₁.phys.exhausted = false ∧
      m ≤ (freeFrames k₁.phys.availFrames).card := by
    have hk := hk₁
    simp only [Kernel.createChildTask, hnew, ← hs₁, hrun] at hk
    rw [h.cr3, hcopy] at hk
    simp only [Option.bind_eq_bind, Option.bind_some, hstack] at hk
    rw [← Option.some.inj hk]
    dsimp only
    rw [prepareInitialKernelStack_exhausted]
    simp only [Phys.prepareInitialKernelStack, Phys.store64_availFrames]
    exact ⟨hx₄, hn₄⟩
  -- the child is linked in, and the loops over the parent's list return
  obtain ⟨root', s₁', Γ₁', s₂', Γ₂', Γ', hc⟩ := h.child hk₁ hxk₁
  have hrel : k₁.phys.Relinked (k₁.addToQueue (kernbase + k.phys.kmalloc.1)).phys :=
    (k₁.phys.relinked_setNext _ _).trans (Phys.relinked_setNext _ _ _)
  have hmm : (k₁.addToQueue (kernbase + k.phys.kmalloc.1)).running.mmap = k.running.mmap := by
    have h₁ : (k₁.addToQueue (kernbase + k.phys.kmalloc.1)).runningThread = k.runningThread :=
      hc.same.1
    rw [Kernel.running, h₁, (hrel.same _).mmap]
    obtain ⟨a, ha, hΓ⟩ := h.record k.runningThread (List.mem_append_left D h.running_mem)
    rw [ha, hc.builds.tasks a (by simp [hΓ]), ← ha]
    rfl
  cases hfork : k.fork u with
  | none =>
    simp only [Kernel.fork, hk₁, Option.bind_eq_bind, Option.bind_some,
      Phys.makeParentCr3asReadOnly, hmm, hvp] at hfork
    cases hfork
  | some out =>
    refine ⟨out.1, out.2, rfl, ?_⟩
    simp only [Kernel.fork, hk₁, Option.bind_eq_bind, Option.bind_some] at hfork
    obtain ⟨s, hmake, hout⟩ := Option.bind_eq_some_iff.mp hfork
    rw [← Option.some.inj hout]
    dsimp only
    rw [makeParentCr3asReadOnly_exhausted hmake, makeParentCr3asReadOnly_availFrames hmake,
      hrel.avail]
    exact ⟨hxk₁, hnk₁⟩

/-- The registers of a program at its entry point. -/
def entryRegs : UserRegs := ⟨0, 0, 0, 0, 0, 0x200, 0x400000, stackTop - 8⟩

/-- The shell, with its one page in its one VMA, forks. -/
theorem shell_fork {mmap : List Vma} {pages : List (Vma × Nat)} (hm : UserPages mmap)
    (hvp : vmaPages mmap = some pages) (hq : ∀ q ∈ pages, q.1.vEnd ≠ stackTop)
    (hn : 4 * pages.length + mmap.length ≤ 42) :
    ∃ pid k', (shellAt mmap 0x400000).fork entryRegs = some (pid, k') ∧
      k'.phys.exhausted = false := by
  obtain ⟨Γ, hI, -, -, -, hrun⟩ := shellAt_inv hm (show pml4Index 0x400000 < 511 by decide)
  have hmm : (shellAt mmap 0x400000).running.mmap = mmap := by rw [hrun]; rfl
  have hroom : 45 ≤ (freeFrames (shellAt mmap 0x400000).phys.availFrames).card := shellAt_alive.2
  obtain ⟨pid, k', hs, hx, -⟩ := hI.fork_returns (m := 0) entryRegs (by rw [hmm, hvp])
    (fun q hm hend => absurd hend (hq q hm)) shellAt_alive.1 (by rw [hmm]; omega)
  exact ⟨pid, k', hs, hx⟩

/-- A page inside its VMA survives. -/
theorem fork_pages_survive_one : ∃ pid k',
    (shellAt [pageVma 0x400000] 0x400000).fork entryRegs = some (pid, k') ∧
      PagesSurvive (shellAt [pageVma 0x400000] 0x400000) k'
        (kernbase + (shellAt [pageVma 0x400000] 0x400000).phys.kmalloc.1) := by
  have hm : UserPages [pageVma 0x400000] := userPages_pageVma (by decide)
  have hvp := vmaPages_pageVma (v := 0x400000) (by decide)
  obtain ⟨pid, k', hs, hx⟩ := shell_fork hm hvp (by simp [pageVma, stackTop]) (by simp)
  obtain ⟨Γ, hI, -, -, hother, hrun⟩ := shellAt_inv hm (show pml4Index 0x400000 < 511 by decide)
  refine ⟨pid, k', hs, (fork_pages_survive_iff hI hs hx).mpr fun v hv htr => ?_⟩
  rw [hrun] at htr
  refine ⟨_, by rw [hrun]; exact hvp, false, _, List.mem_singleton_self _, fun ho => htr ?_, ?_⟩
  · rw [translate_eq, show (shellRecord [pageVma 0x400000]).regs.cr3 = 0x2000 from rfl]
    cases hl : (shellAt [pageVma 0x400000] 0x400000).phys.leaf v 0x2000 with
    | none => rfl
    | some e =>
      rw [hother v e hv ho hl]
      rfl
  · simp [pageVma, stackTop]

/-- **A present page outside every VMA is lost.** -/
theorem fork_loses_unlisted_page : ∃ pid k',
    (shellAt [] 0x400000).fork entryRegs = some (pid, k') ∧
      ¬ PagesSurvive (shellAt [] 0x400000) k'
        (kernbase + (shellAt [] 0x400000).phys.kmalloc.1) := by
  have hm : UserPages [] := fun vma hvma => by cases hvma
  obtain ⟨pid, k', hs, hx⟩ := shell_fork hm (show vmaPages [] = some [] from rfl) (by simp) (by simp)
  obtain ⟨Γ, hI, hf, hl, -, hrun⟩ := shellAt_inv hm (show pml4Index 0x400000 < 511 by decide)
  refine ⟨pid, k', hs, fun hsurv => ?_⟩
  obtain ⟨pages, hvp, b, q, hq, -⟩ := hI.covers_of_survive hs hx hsurv (v := 0x400000)
    (by decide) (by
      rw [hrun, show (shellRecord []).regs.cr3 = 0x2000 from rfl,
        translate_of_leaf (f := 0x4000) (by decide) hl (Or.inl rfl)]
      simp)
  rw [hrun] at hvp
  obtain rfl : [] = pages := Option.some.inj hvp
  cases hq

end Sbunix
