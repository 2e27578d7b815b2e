import Sbunix.Scheduling

/-!
# Creating tasks

`fork` and `exec` take a page for the record of the new task, build its address space and link it
in. Both are `Builds` steps, after which the invariant holds of one task more.
-/

namespace Sbunix

open ByteMem Chain

variable {image : Nat} {Γ Γ' : Nat → Use} {L L' M R D D' G G' : List Nat} {k k' : Kernel}
  {pml4 x r f root : Nat} {s s' : Phys}

/-- A record that `setTask` writes to lies in one page. -/
theorem setTask_edits (s : Phys) (f : Nat) (t : Task) : Edits s (s.setTask (kernbase + f) t) f :=
  ⟨rfl, rfl, fun _ _ => rfl, fun _ hg =>
    Function.update_of_ne (fun hc => hg (Nat.add_left_cancel hc)) _ _⟩

@[simp] theorem setTask_mem (s : Phys) (a : Nat) (t : Task) : (s.setTask a t).mem = s.mem := rfl

@[simp] theorem setTask_self (s : Phys) (a : Nat) (t : Task) : (s.setTask a t).tasks a = t :=
  Function.update_self ..

/-- **One task more.** -/
theorem Spaces.cons (h : Spaces image Γ L R G pml4 s) (hf : Γ f = .kernel)
    (hroot : (s.tasks (kernbase + f)).regs.cr3 ∈ G ∧ (s.tasks (kernbase + f)).regs.cr3 ≠ pml4)
    (hown : ∀ a ∈ L, (s.tasks a).regs.cr3 ≠ (s.tasks (kernbase + f)).regs.cr3)
    (hleaves : Leaves 511 (IsData Γ) s (s.tasks (kernbase + f)).regs.cr3)
    (hpages : UserPages (s.tasks (kernbase + f)).mmap)
    (halarms : (s.tasks (kernbase + f)).currAlarmCount ≤
      (s.tasks (kernbase + f)).expectedAlarmCount) (hL : ∀ a, a ∈ L' → a = kernbase + f ∨ a ∈ L)
    (hR : ∀ a, a ∈ R' → a = kernbase + f ∨ a ∈ R) (hsub : ∀ a ∈ L', a ∈ R') :
    Spaces image Γ L' R' G pml4 s where
  sub := hsub
  record a ha := by
    rcases hR a ha with rfl | ha
    · exact ⟨f, rfl, hf⟩
    · exact h.record a ha
  typed := h.typed
  root a ha := by
    rcases hL a ha with rfl | ha
    · exact hroot
    · exact h.root a ha
  own a ha b hb hab := by
    rcases hL a ha with rfl | ha <;> rcases hL b hb with rfl | hb
    · rfl
    · exact absurd hab.symm (hown b hb)
    · exact absurd hab (hown a ha)
    · exact h.own a ha b hb hab
  leaves a ha := by
    rcases hL a ha with rfl | ha
    · exact hleaves
    · exact h.leaves a ha
  pages a ha := by
    rcases hL a ha with rfl | ha
    · exact hpages
    · exact h.pages a ha
  alarms a ha := by
    rcases hL a ha with rfl | ha
    · exact halarms
    · exact h.alarms a ha
  image := h.image

/-! ### A record and a root -/

/-- The record and the root of a new task: two pages, the second of them an empty tree. -/
structure Fresh (G : List Nat) (pml4 : Nat) (s : Phys) (Γ : Nat → Use) (f root : Nat) (s' : Phys)
    (Γ' : Nat → Use) : Prop where
  builds : Builds (userShape pml4 (root :: G)) (· = root) s Γ s' Γ'
  record : Γ' f = .kernel
  recordNew : Γ f = .unowned
  rootNew : Γ root = .unowned
  zeroed : s'.tasks (kernbase + f) = Task.zeroed
  empty : ∀ v, pml4Index v < 511 → s'.leaf v root = none

theorem fresh_of_kmalloc {c : Nat} (h : Typed (userShape pml4 G) s Γ)
    (hx : (s.kmalloc.2.getNewPML4ForUser c).2.exhausted = false) :
    ∃ Γ', Fresh G pml4 s Γ s.kmalloc.1 (s.kmalloc.2.getNewPML4ForUser c).1
      (s.kmalloc.2.getNewPML4ForUser c).2 Γ' := by
  obtain ⟨hr, hz⟩ := getNewPML4ForUser_taken hx
  obtain ⟨ht, -, hzero⟩ := kmalloc_taken hr.live
  set root := (s.kmalloc.2.getNewPML4ForUser c).1 with hroot
  have hB₁ := (Builds.refl (W := (· = root)) h).taken ht (u := .kernel) (by simp) (by simp)
  have hgood : (userShape pml4 G).Good root 0 := ⟨by decide, Or.inr (Or.inl rfl)⟩
  have hB₂ := hB₁.newRoot hr rfl hz hgood
  rw [userShape_addRoot] at hB₂
  have hne : s.kmalloc.1 ≠ root := by
    intro hc
    have := hr.unowned hB₁.typed
    rw [← hc, Function.update_self] at this
    cases this
  refine ⟨_, hB₂, ?_, ht.unowned h, hB₁.new (hr.unowned hB₁.typed), ?_, fun v hv => ?_⟩
  · rw [Function.update_of_ne hne, Function.update_self]
  · rw [hr.tasks _ hne, hzero]
  · exact leaf_emptyRoot (hz _ hv)

/-! ### A record and its address space -/

/-- **A new task, not yet linked in**: a record with its own tree of new tables, built from the
state of `k` on. -/
structure NewTask (G : List Nat) (k : Kernel) (Γ : Nat → Use) (f root : Nat) (k' : Kernel)
    (Γ' : Nat → Use) : Prop where
  recordNew : Γ f = .unowned
  rootNew : Γ root = .unowned
  builds : Builds (userShape k.pml4 (root :: G)) (fun r => r = root ∨ r = k.pml4) k.phys Γ k'.phys
    Γ'
  leaves : Leaves 511 (IsData Γ') k'.phys root
  record : Γ' f = .kernel
  cr3 : (k'.phys.tasks (kernbase + f)).regs.cr3 = root
  pages : UserPages (k'.phys.tasks (kernbase + f)).mmap
  alarms : (k'.phys.tasks (kernbase + f)).currAlarmCount = 0
  same : k'.runningThread = k.runningThread ∧ k'.deleteQueue = k.deleteQueue ∧
    k'.pml4 = k.pml4 ∧ k'.cr3 = k.cr3

/-- The address spaces with the new one among them. -/
theorem Inv.newTask (h : Inv image Γ L D G k) (hn : NewTask G k Γ f root k' Γ') :
    Spaces image Γ' ((kernbase + f) :: L) ((kernbase + f) :: (L ++ D)) (root :: G) k.pml4 k'.phys ∧
      (∀ a ∈ L ++ D, k'.phys.tasks a = k.phys.tasks a) ∧ kernbase + f ∉ L ++ D := by
  -- no tree in use is the new one, or the kernel's own
  have hne : ∀ a ∈ L, (k.phys.tasks a).regs.cr3 ≠ root := by
    intro a ha hcr
    have := h.typed.root (Or.inr (h.root a ha).1 : (userShape k.pml4 G).Root _)
    rw [hcr, hn.rootNew] at this
    cases this
  have hrootp : root ≠ k.pml4 := by
    intro hcr
    have := h.typed.root (Or.inl rfl : (userShape k.pml4 G).Root _)
    rw [← hcr, hn.rootNew] at this
    cases this
  obtain ⟨hS, htasks⟩ := h.toSpaces.builds hn.builds (fun _ hr => List.mem_cons_of_mem root hr)
    fun a ha hW => hW.elim (fun hc => absurd hc (hne a ha)) fun hc => absurd hc (h.root a ha).2
  refine ⟨hS.cons (f := f) hn.record ?_ (fun a ha => ?_) ?_ hn.pages ?_ (fun a ha => ?_)
    (fun a ha => ?_) fun a ha => ?_, htasks, fun hmem => ?_⟩
  · rw [hn.cr3]
    exact ⟨List.mem_cons_self, hrootp⟩
  · rw [hn.cr3, htasks a (List.mem_append_left D ha)]
    exact hne a ha
  · rw [hn.cr3]
    exact hn.leaves
  · rw [hn.alarms]
    exact Nat.zero_le _
  · exact List.mem_cons.mp ha
  · exact List.mem_cons.mp ha
  · simp only [List.mem_cons, List.mem_append] at ha ⊢
    tauto
  · obtain ⟨g, hg, hΓ⟩ := h.record _ hmem
    obtain rfl : f = g := Nat.add_left_cancel hg
    rw [hn.recordNew] at hΓ
    cases hΓ

/-! ### fork -/

theorem copyVMA_alive {l : List Vma} (hx : (s.copyVMA l).2.exhausted = false) :
    s.exhausted = false := by
  induction l generalizing s with
  | nil => exact hx
  | cons _ _ ih => exact kmalloc_alive (ih hx)

theorem copyParentCr3Entries_alive {mmap : List Vma} {cr3 parent child : Nat}
    (hs : s.copyParentCr3Entries mmap cr3 parent child = some s') (hx : s'.exhausted = false) :
    s.exhausted = false := by
  obtain ⟨pages, -, hf⟩ := Option.bind_eq_some_iff.mp hs
  clear hs
  -- backwards through the pages
  induction pages generalizing s with
  | nil =>
    obtain rfl : s = s' := by simpa using hf
    exact hx
  | cons page pages ih =>
    rw [List.foldlM_cons] at hf
    obtain ⟨t, ht, hf⟩ := Option.bind_eq_some_iff.mp hf
    exact copyParentPage_alive ht (ih hf)

/-- **What `createChildTask` builds.** `s₁` is the memory in which `copyParentCr3Entries` starts,
`s₂` the one in which it ends; behind it no translation and no data page changes. -/
structure Child (G : List Nat) (k : Kernel) (Γ : Nat → Use) (f root : Nat) (s₁ : Phys)
    (Γ₁ : Nat → Use) (s₂ : Phys) (Γ₂ : Nat → Use) (k' : Kernel) (Γ' : Nat → Use) : Prop where
  recordNew : Γ f = .unowned
  rootNew : Γ root = .unowned
  start : Builds (userShape k.pml4 (root :: G)) (· = root) k.phys Γ s₁ Γ₁
  empty : ∀ v, pml4Index v < 511 → s₁.leaf v root = none
  copy : s₁.copyParentCr3Entries k.running.mmap k.running.regs.cr3 k.running.regs.cr3 root = some s₂
  copied : Builds (userShape k.pml4 (root :: G)) (· = root) s₁ Γ₁ s₂ Γ₂
  space : ∃ pages, vmaPages k.running.mmap = some pages ∧
    ChildSpace pages 511 k.running.regs.cr3 root s₁ s₂ Γ₁ Γ₂
  builds : Builds (userShape k.pml4 (root :: G)) (· = root) k.phys Γ k'.phys Γ'
  data : ∀ g, Γ₂ g = .data → Γ' g = .data ∧
    ∀ x, g ≤ x → x < g + 4096 → k'.phys.mem x = s₂.mem x
  leaf : ∀ v r, r ∈ root :: G → pml4Index v < 511 → k'.phys.leaf v r = s₂.leaf v r
  record : Γ' f = .kernel
  cr3 : (k'.phys.tasks (kernbase + f)).regs.cr3 = root
  mmap : (k'.phys.tasks (kernbase + f)).mmap.map (fun v => (v.vStart, v.vEnd)) =
    k.running.mmap.map fun v => (v.vStart, v.vEnd)
  alarms : (k'.phys.tasks (kernbase + f)).currAlarmCount = 0
  pidT : (k'.phys.tasks (kernbase + f)).pidT = intSucc k.pidCount
  files : (k'.phys.tasks (kernbase + f)).fdPointers = k.running.fdPointers ∧
    (k'.phys.tasks (kernbase + f)).fdCount = k.running.fdCount
  same : k'.runningThread = k.runningThread ∧ k'.deleteQueue = k.deleteQueue ∧
    k'.pml4 = k.pml4 ∧ k'.cr3 = k.cr3

/-- **The start of `copyParentCr3Entries`**, and what follows when it returns. `t` is what has been
written to the new record. -/
theorem Inv.childStart (h : Inv image Γ L D G k) (t : Task) {c root : Nat} {s₁ : Phys}
    (hnew : k.phys.kmalloc.2.getNewPML4ForUser c = (root, s₁)) (hx : s₁.exhausted = false) :
    ∃ Γ₁, Fresh G k.pml4 k.phys Γ k.phys.kmalloc.1 root s₁ Γ₁ ∧
      Builds (userShape k.pml4 (root :: G)) (· = root) k.phys Γ
        (s₁.setTask (kernbase + k.phys.kmalloc.1) t) Γ₁ ∧
      (∀ v, pml4Index v < 511 →
        (s₁.setTask (kernbase + k.phys.kmalloc.1) t).leaf v root = none) ∧
      (s₁.setTask (kernbase + k.phys.kmalloc.1) t).tasks k.runningThread = k.running ∧
      ∀ s₂, (s₁.setTask (kernbase + k.phys.kmalloc.1) t).copyParentCr3Entries k.running.mmap
          k.running.regs.cr3 k.running.regs.cr3 root = some s₂ → s₂.exhausted = false →
        ∃ Γ₂ pages, vmaPages k.running.mmap = some pages ∧
          Builds (userShape k.pml4 (root :: G)) (· = root)
            (s₁.setTask (kernbase + k.phys.kmalloc.1) t) Γ₁ s₂ Γ₂ ∧
          ChildSpace pages 511 k.running.regs.cr3 root
            (s₁.setTask (kernbase + k.phys.kmalloc.1) t) s₂ Γ₁ Γ₂ := by
  set f := k.phys.kmalloc.1 with hf
  obtain ⟨Γ₁, hF⟩ : ∃ Γ₁, Fresh G k.pml4 k.phys Γ f root s₁ Γ₁ := by
    have := fresh_of_kmalloc h.typed (c := c) (by rw [hnew]; exact hx)
    rwa [hnew] at this
  have hB₁ := hF.builds.edits (setTask_edits s₁ f t) hF.recordNew (by simp [hF.record])
    (by simp [hF.record])
  have hempty : ∀ v, pml4Index v < 511 → (s₁.setTask (kernbase + f) t).leaf v root = none :=
    fun v hv => (Phys.leaf_congr (setTask_mem ..) v root).trans (hF.empty v hv)
  refine ⟨Γ₁, hF, hB₁, hempty, ?_, fun s₂ hcopy hx₂ => ?_⟩
  · obtain ⟨a, ha, hΓ⟩ := h.record k.runningThread (List.mem_append_left D h.running_mem)
    rw [ha, hB₁.tasks a (by simp [hΓ]), ← ha]
    rfl
  · -- the parent's tree is another one
    have hne : k.running.regs.cr3 ≠ root := by
      intro hc
      have := h.typed.root (Or.inr (h.root k.runningThread h.running_mem).1 :
        (userShape k.pml4 G).Root k.running.regs.cr3)
      rw [hc, hF.rootNew] at this
      cases this
    obtain ⟨Γ₂, pages, hvp, hB₂, hC₂⟩ := copyParentCr3Entries_pages hB₁.typed rfl
      (userShape_accepts k.pml4 (root :: G) root) (Or.inr List.mem_cons_self)
      (Or.inr (List.mem_cons_of_mem root (h.root k.runningThread h.running_mem).1)) hne
      (h.pages k.runningThread h.running_mem)
      ((hB₁.leaves_other h.typed (Or.inr (h.root k.runningThread h.running_mem).1) hne
        (h.leaves k.runningThread h.running_mem)).mono fun q hq => hB₁.data q hq)
      hempty hcopy hx₂
    exact ⟨Γ₂, pages, hvp, hB₂, hC₂⟩

/-- **`createChildTask`**, with the page `g` of the kernel stack and the record in full: `stack` is
the memory in which the VMAs are copied. The last thing it does is to prepare the stack. -/
theorem Inv.childNodes (h : Inv image Γ L D G k) {u : UserRegs}
    (hs : { k with phys := k.phys.kmalloc.2 }.createChildTask (kernbase + k.phys.kmalloc.1) u =
      some k') (hx : k'.phys.exhausted = false) :
    ∃ root s₁ Γ₁ s₂ Γ₂ Γ' g, Child G k Γ k.phys.kmalloc.1 root s₁ Γ₁ s₂ Γ₂ k' Γ' ∧
      Γ' g = .kernel ∧
      (∃ t : Phys, k'.phys = t.prepareInitialKernelStack
        (k'.phys.tasks (kernbase + k.phys.kmalloc.1)).regs) ∧
      ∃ stack, k'.phys.tasks (kernbase + k.phys.kmalloc.1) = Kernel.finishChild
        (Kernel.initChild Task.zeroed (intSucc k.pidCount) k.running.pidT u root) k.running u
        (kernbase + g + 0x1000) (Phys.copyVMA stack k.running.mmap).1 ∧
      (Phys.copyVMA stack k.running.mmap).2.exhausted = false ∧
      (∀ n, IsFree stack.availFrames n → IsFree k.phys.availFrames n) ∧
      k'.phys.availFrames = (Phys.copyVMA stack k.running.mmap).2.availFrames := by
  unfold Kernel.createChildTask at hs
  simp only [Option.bind_eq_bind] at hs
  obtain ⟨s₂, hcopy, hk⟩ := Option.bind_eq_some_iff.mp hs
  clear hs
  simp only [Option.pure_def, Option.some.injEq] at hk
  set f := k.phys.kmalloc.1 with hf
  rcases hnew : k.phys.kmalloc.2.getNewPML4ForUser k.cr3 with ⟨root, s₀⟩
  simp only [hnew] at hcopy hk
  set s₁ := s₀.setTask (kernbase + f) _ with hs₁
  obtain ⟨g, stack, hstack⟩ : ∃ g stack, s₂.kmalloc = (g, stack) := ⟨_, _, rfl⟩
  simp only [hstack] at hk
  set copied := stack.copyVMA (stack.tasks k.runningThread).mmap with hnodes
  set s₃ := copied.2.setTask (kernbase + f) _ with hs₃
  have hk' : k'.phys = s₃.prepareInitialKernelStack (s₃.tasks (kernbase + f)).regs := by rw [← hk]
  have hx₃ : copied.2.exhausted = false := by
    rw [hk', prepareInitialKernelStack_exhausted] at hx
    exact hx
  have hks : Taken s₂ stack g := by
    have := (kmalloc_taken (s := s₂) (by rw [hstack]; exact copyVMA_alive hx₃)).1
    rwa [hstack] at this
  have hx₁ : s₁.exhausted = false := copyParentCr3Entries_alive hcopy hks.live
  obtain ⟨Γ₁, hF, hB₁, hempty, hrun, hcopied⟩ := h.childStart _ hnew hx₁
  rw [← hf] at hF
  rw [← hf, ← hs₁] at hB₁ hempty hrun hcopied
  rw [hrun, h.cr3] at hcopy
  obtain ⟨Γ₂, pages, hvp, hB₂, hC₂⟩ := hcopied s₂ hcopy hks.live
  set S := userShape k.pml4 (root :: G) with hS
  -- the kernel stack and the nodes
  have hB₃ := (hB₁.trans hB₂).taken hks (u := .kernel) (by simp) (by simp)
  set Γ₃ := Function.update Γ₂ g .kernel with hdef
  obtain ⟨Γ₄, hB₄, hleaf₄⟩ := copyVMA_builds (W := (· = root)) hB₃.typed hx₃
  have hT₄ := hB₃.trans hB₄
  have hΓ₂ : Γ₂ f = .kernel := by rw [hB₂.ext f (by simp [hF.record]), hF.record]
  have hrootS : S.Root root := Or.inr List.mem_cons_self
  have hfg : f ≠ g := by
    rintro rfl
    rw [hks.unowned hB₂.typed] at hΓ₂
    cases hΓ₂
  have hΓ₃ : Γ₃ f = .kernel := by rw [hdef, Function.update_of_ne hfg, hΓ₂]
  have hΓ₄ : Γ₄ f = .kernel := by rw [hB₄.ext f (by simp [hΓ₃]), hΓ₃]
  have hΓ₃g : Γ₃ g = .kernel := Function.update_self ..
  have hΓ₄g : Γ₄ g = .kernel := by rw [hB₄.ext g (by simp [hΓ₃g]), hΓ₃g]
  have hΓg : Γ g = .unowned := (hB₁.trans hB₂).new (hks.unowned hB₂.typed)
  have he₃ : Edits copied.2 s₃ f := setTask_edits copied.2 f _
  have hrsp : (s₃.tasks (kernbase + f)).regs.kernelRsp = kernbase + g + 0x1000 := by
    rw [hs₃, setTask_self]
    rfl
  have he₄ := prepareInitialKernelStack_edits (s := s₃) hks.lt hks.aligned hrsp
  rw [← hk'] at he₄
  have hT₅ := (hT₄.edits he₃ hF.recordNew (by simp [hΓ₄]) (by simp [hΓ₄])).edits he₄ hΓg
    (by simp [hΓ₄g]) (by simp [hΓ₄g])
  -- the record
  have htask₂ : copied.2.tasks (kernbase + f) = s₁.tasks (kernbase + f) :=
    ((hB₂.taken hks (u := .kernel) (by simp) (by simp)).trans hB₄).tasks f (by simp [hF.record])
  have hstackrun : stack.tasks k.runningThread = k.running := by
    obtain ⟨a, ha, hΓ⟩ := h.record k.runningThread (List.mem_append_left D h.running_mem)
    rw [ha, hB₃.tasks a (by simp [hΓ]), ← ha]
    rfl
  have hparent : k.phys.kmalloc.2.tasks k.runningThread = k.running := by
    have hx₀ : (k.phys.kmalloc.2.getNewPML4ForUser k.cr3).2.exhausted = false := by
      rw [hnew]
      exact hx₁
    have ht := (kmalloc_taken (s := k.phys) (kmalloc_alive
      (by simpa only [Phys.getNewPML4ForUser, Phys.store64_exhausted] using hx₀))).1
    obtain ⟨a, ha, hΓ⟩ := h.record k.runningThread (List.mem_append_left D h.running_mem)
    have haf : a ≠ k.phys.kmalloc.1 := by
      intro hc
      rw [hc, ht.unowned h.typed] at hΓ
      cases hΓ
    have hkeep := ht.tasks a haf
    rwa [← ha] at hkeep
  have hrec : k'.phys.tasks (kernbase + f) = Kernel.finishChild
      (Kernel.initChild Task.zeroed (intSucc k.pidCount) k.running.pidT u root) k.running u
      (kernbase + g + 0x1000) copied.1 := by
    rw [he₄.tasks f hfg, hs₃, setTask_self, htask₂, hs₁, setTask_self, hstackrun, hF.zeroed,
      Kernel.running, hparent]
  have hkeep : k'.phys.tasks (kernbase + f) = s₃.tasks (kernbase + f) := he₄.tasks f hfg
  refine ⟨root, s₁, Γ₁, s₂, Γ₂, Γ₄, g, ⟨hF.recordNew, hF.rootNew, hB₁, hempty, hcopy, hB₂,
    ⟨pages, hvp, hC₂⟩, hT₅, fun q hq => ?_, fun v r hr hv => ?_, hΓ₄, ?_, ?_, ?_, ?_, ?_, ?_⟩,
    hΓ₄g, ⟨s₃, by rw [hkeep, hk']⟩, stack, by rw [hrec, hnodes, hstackrun], ?_,
    fun n hn => ((hB₃.free n).mp hn).1, ?_⟩
  · have hq₃ : Γ₃ q = .data := by
      rw [hdef, Function.update_of_ne, hq]
      rintro rfl
      rw [hks.unowned hB₂.typed] at hq
      cases hq
    have hqg : q ≠ g := by
      rintro rfl
      simp [hΓ₃g] at hq₃
    have hal := (data_aligned hB₂.typed hq).1
    have hgal := hks.aligned
    refine ⟨by rw [hB₄.ext q (by simp [hq₃]), hq₃], fun x hx hx' => ?_⟩
    rw [he₄.mem x (by omega), hs₃, setTask_mem, hB₄.mem q (by simp [hq₃]) (by simp [hq₃]) x hx hx',
      hks.mem x (by omega)]
  · have hrS : S.Root r := Or.inr hr
    rw [he₄.leaf (hT₄.edits he₃ hF.recordNew (by simp [hΓ₄]) (by simp [hΓ₄])).typed hks.aligned
      (by simp [hΓ₄g]) hrS hv, Phys.leaf_congr (setTask_mem ..), hleaf₄ r v hrS hv,
      hks.leaf hB₂.typed hrS hv]
  · rw [hrec]
    simp only [Kernel.finishChild, Kernel.initChild]
  · rw [hrec]
    exact (copyVMA_fst stack _).trans (by rw [hstackrun])
  · rw [hrec]
    simp only [Kernel.finishChild, Kernel.initChild, Task.zeroed]
  · rw [hrec]
    simp only [Kernel.finishChild, Kernel.initChild]
  · rw [hrec]
    simp only [Kernel.finishChild, and_self]
  · rw [← hk]
    exact ⟨rfl, rfl, rfl, rfl⟩
  · rw [← hstackrun]
    exact hx₃
  · rw [he₄.avail, he₃.avail, hnodes, hstackrun]

/-- … with any list of VMAs. -/
theorem Inv.childStack (h : Inv image Γ L D G k) {u : UserRegs}
    (hs : { k with phys := k.phys.kmalloc.2 }.createChildTask (kernbase + k.phys.kmalloc.1) u =
      some k') (hx : k'.phys.exhausted = false) :
    ∃ root s₁ Γ₁ s₂ Γ₂ Γ' g, Child G k Γ k.phys.kmalloc.1 root s₁ Γ₁ s₂ Γ₂ k' Γ' ∧
      Γ' g = .kernel ∧
      (∃ t : Phys, k'.phys = t.prepareInitialKernelStack
        (k'.phys.tasks (kernbase + k.phys.kmalloc.1)).regs) ∧
      ∃ ppid mmap, k'.phys.tasks (kernbase + k.phys.kmalloc.1) = Kernel.finishChild
        (Kernel.initChild Task.zeroed (intSucc k.pidCount) ppid u root) k.running u
        (kernbase + g + 0x1000) mmap := by
  obtain ⟨root, s₁, Γ₁, s₂, Γ₂, Γ', g, hc, hg, ht, stack, hrec, -⟩ := h.childNodes hs hx
  exact ⟨root, s₁, Γ₁, s₂, Γ₂, Γ', g, hc, hg, ht, _, _, hrec⟩

/-- **`createChildTask`.** -/
theorem Inv.child (h : Inv image Γ L D G k) {u : UserRegs}
    (hs : { k with phys := k.phys.kmalloc.2 }.createChildTask (kernbase + k.phys.kmalloc.1) u =
      some k') (hx : k'.phys.exhausted = false) :
    ∃ root s₁ Γ₁ s₂ Γ₂ Γ', Child G k Γ k.phys.kmalloc.1 root s₁ Γ₁ s₂ Γ₂ k' Γ' := by
  obtain ⟨root, s₁, Γ₁, s₂, Γ₂, Γ', g, hc, -⟩ := h.childStack hs hx
  exact ⟨root, s₁, Γ₁, s₂, Γ₂, Γ', hc⟩

/-- **Touching the tree of one task** keeps the invariant, if its entries are still good. -/
theorem Inv.touch {W : Nat → Prop} (h : Inv image Γ L D G k)
    (hB : Builds (userShape k.pml4 G) W k.phys Γ s Γ')
    (hW : ∀ a ∈ L, W (k.phys.tasks a).regs.cr3 →
      Leaves 511 (IsData Γ') s (k.phys.tasks a).regs.cr3) :
    Inv image Γ' L D G { k with phys := s } := by
  obtain ⟨hS, htasks⟩ := h.toSpaces.builds hB (fun _ hr => hr) hW
  have hL : ∀ a ∈ L, s.tasks a = k.phys.tasks a := fun a ha => htasks a (List.mem_append_left D ha)
  refine ⟨hS, h.ring.congr fun a ha => ?_, h.queue.congr fun a ha => ?_, h.nodup, ?_, ?_⟩
  · exact congrArg Task.next (hL a ha)
  · exact congrArg Task.next (htasks a (List.mem_append_right L ha))
  · rw [Kernel.running, hL k.runningThread h.running_mem]
    exact h.cr3
  · obtain ⟨a, ha, hpid⟩ := h.init
    exact ⟨a, ha, by rw [hL a ha, hpid]⟩

/-- The child is a new task. -/
theorem Inv.childTask {k₁ : Kernel} {s₁ s₂ : Phys} {Γ₁ Γ₂ : Nat → Use} (h : Inv image Γ L D G k)
    (hc : Child G k Γ f root s₁ Γ₁ s₂ Γ₂ k₁ Γ') : NewTask G k Γ f root k₁ Γ' where
  recordNew := hc.recordNew
  rootNew := hc.rootNew
  builds := hc.builds.mono fun _ hr => Or.inl hr
  leaves v e hv he := by
    rw [hc.leaf v root List.mem_cons_self hv] at he
    obtain ⟨pages, -, hC⟩ := hc.space
    exact (hC.leaves v e hv he).mono fun g hg => (hc.data g hg).1
  record := hc.record
  cr3 := hc.cr3
  pages := (h.pages k.runningThread h.running_mem).congr hc.mmap
  alarms := hc.alarms
  same := hc.same

/-- **`createChildTask` and `addToQueue`**: one task more on the ring. -/
theorem Inv.queueChild {k₁ : Kernel} {s₁ s₂ : Phys} {Γ₁ Γ₂ : Nat → Use}
    (h : Inv image Γ (r :: M) D G k) (hc : Child G k Γ f root s₁ Γ₁ s₂ Γ₂ k₁ Γ') :
    Inv image Γ' (r :: (kernbase + f) :: M) D (root :: G) (k₁.addToQueue (kernbase + f)) := by
  obtain rfl := h.ring.head
  obtain ⟨hrun, hq, hp, hc3⟩ := hc.same
  obtain ⟨hS₂, htasks, hnew⟩ := h.newTask (h.childTask hc)
  have htask : ∀ a ∈ k.runningThread :: M, k₁.phys.tasks a = k.phys.tasks a := fun a ha =>
    htasks a (List.mem_append_left D ha)
  have hnd := h.nodup
  rw [List.cons_append, List.nodup_cons] at hnd
  simp only [List.cons_append, List.mem_cons, List.mem_append, not_or] at hnew hnd
  -- from here on only links are written
  have hrel := (k₁.phys.relinked_setNext (kernbase + f) (k₁.phys.next k₁.runningThread)).trans
    (Phys.relinked_setNext _ k₁.runningThread (kernbase + f))
  -- the child stands between the parent and its successor
  have hn : (k₁.addToQueue (kernbase + f)).phys.next =
      Function.update (Function.update k₁.phys.next (kernbase + f) (k₁.phys.next k.runningThread))
        k.runningThread (kernbase + f) := by
    simp only [Kernel.addToQueue, Phys.next_setNext, hrun]
  have hring₁ : Ring k₁.phys.next k.runningThread (k.runningThread :: M) :=
    h.ring.congr fun a ha => congrArg Task.next (htask a ha)
  have hqueue₁ : Seg k₁.phys.next k₁.deleteQueue D 0 := by
    rw [hq]
    exact h.queue.congr fun a ha => congrArg Task.next
      (htasks a (List.mem_append_right _ ha))
  refine ⟨?_, ?_, ?_, ?_, ?_, ?_⟩
  · change Spaces image Γ' _ _ (root :: G) k₁.pml4 _
    rw [hp]
    refine hS₂.relink hrel (fun a ha => ?_) (fun a ha => ?_) fun _ ha => List.mem_append_left D ha
    · simp only [List.mem_cons] at ha ⊢
      tauto
    · simp only [List.cons_append, List.mem_cons, List.mem_append] at ha ⊢
      tauto
  · change Ring _ k₁.runningThread _
    rw [hn, hrun]
    exact hring₁.insert (by simp only [List.mem_cons, not_or]; exact ⟨hnew.1, hnew.2.1⟩)
  · rw [hn]
    change Seg _ k₁.deleteQueue D 0
    exact (hqueue₁.update hnew.2.2).update hnd.1.2
  · simp only [List.cons_append, List.nodup_cons, List.mem_cons, List.mem_append, not_or]
    exact ⟨⟨Ne.symm hnew.1, hnd.1.1, hnd.1.2⟩, ⟨hnew.2.1, hnew.2.2⟩, hnd.2⟩
  · change k₁.cr3 = ((k₁.addToQueue (kernbase + f)).phys.tasks k₁.runningThread).regs.cr3
    rw [show ((k₁.addToQueue (kernbase + f)).phys.tasks k₁.runningThread).regs.cr3 =
      (k₁.phys.tasks k₁.runningThread).regs.cr3 from (hrel.same k₁.runningThread).cr3, hc3, hrun,
      htask _ List.mem_cons_self]
    exact h.cr3
  · obtain ⟨a, ha, hpid⟩ := h.init
    refine ⟨a, ?_, ?_⟩
    · simp only [List.mem_cons] at ha ⊢
      tauto
    · rw [show ((k₁.addToQueue (kernbase + f)).phys.tasks a).pidT = (k₁.phys.tasks a).pidT from
        (hrel.same a).pidT, htask a ha, hpid]

/-- **`fork`.** -/
theorem Inv.fork (h : Inv image Γ (r :: M) D G k) {u : UserRegs} {pid : Int}
    (hs : k.fork u = some (pid, k')) (hx : k'.phys.exhausted = false) :
    ∃ Γ' G', Inv image Γ' (r :: (kernbase + k.phys.kmalloc.1) :: M) D G' k' := by
  unfold Kernel.fork at hs
  simp only [Option.bind_eq_bind] at hs
  obtain ⟨k₁, hk₁, hs⟩ := Option.bind_eq_some_iff.mp hs
  obtain ⟨s, hmake, hs⟩ := Option.bind_eq_some_iff.mp hs
  simp only [Option.pure_def, Option.some.injEq, Prod.mk.injEq] at hs
  obtain ⟨-, rfl⟩ := hs
  have hx₁ : k₁.phys.exhausted = false := by
    rw [makeParentCr3asReadOnly_exhausted hmake] at hx
    exact hx
  obtain ⟨root, s₁, Γ₁, s₂, Γ₂, Γ', hc⟩ := h.child hk₁ hx₁
  have hI := h.queueChild hc
  set k₂ := k₁.addToQueue (kernbase + k.phys.kmalloc.1) with hk₂
  -- the running task loses its right to write
  have hmem := hI.running_mem
  obtain ⟨ht, hl⟩ := makeParentCr3asReadOnly_touches hI.typed rfl
    (Or.inr (hI.root k₂.runningThread hmem).1) (hI.pages k₂.runningThread hmem)
    (hI.leaves k₂.runningThread hmem) hmake
  refine ⟨Γ', root :: G, hI.touch (W := (· = k₂.running.regs.cr3))
    ((Builds.refl hI.typed).touches ht rfl) fun a ha hW => ?_⟩
  rw [hW]
  exact hl

/-! ### exec -/

theorem argumentVma_pages (addr : Nat) (pageNum : Int) :
    UserPages [Kernel.argumentVma addr pageNum] := by
  refine userPages_of_range (by simp [Kernel.argumentVma]) fun x hx hx' => ?_
  simp only [Kernel.argumentVma] at hx hx'
  rw [pml4Index_eq]
  omega

theorem deleteRunningThreadAndJump_exhausted (hs : k.deleteRunningThreadAndJump x = some k') :
    k'.phys.exhausted = k.phys.exhausted := by
  obtain ⟨p, -, hk⟩ := Option.bind_eq_some_iff.mp hs
  rw [← Option.some.inj hk]
  simp [Kernel.moveToNextProcess]

theorem execFailed_exhausted (hs : k.execFailed x = some k') :
    k'.phys.exhausted = k.phys.exhausted := by
  obtain ⟨p, -, hk⟩ := Option.bind_eq_some_iff.mp hs
  rw [← Option.some.inj hk]
  simp [Kernel.moveToNextProcess, Kernel.modifyTask, Phys.pageDeAllocator]

theorem pushUser_exhausted {rsp v cr3 : Nat} (hs : Kernel.pushUser s rsp v cr3 = some s') :
    s'.exhausted = s.exhausted := by
  obtain ⟨a, -, rfl⟩ := Option.map_eq_some_iff.mp hs
  exact s.store64_exhausted a v

/-- **The beginning of `exec`**: the record, the root and the stack of the new task; the archive
stays as it is. -/
theorem Inv.stackBuilt (h : Inv image Γ L D G k) {elf size root : Nat} {s₁ : Phys}
    (helf : elf + size ≤ image) (hnew : k.phys.kmalloc.2.getNewPML4ForUser k.cr3 = (root, s₁))
    (hx : (Kernel.stackForUser ⟨s₁, [], k.pageNum⟩ root k.pml4).phys.exhausted = false) :
    UserPages (Kernel.stackForUser ⟨s₁, [], k.pageNum⟩ root k.pml4).mmap ∧
      ∃ (Γ₁ Γ₂ : Nat → Use) (f : Nat), Fresh G k.pml4 k.phys Γ k.phys.kmalloc.1 root s₁ Γ₁ ∧
        Populates (userShape k.pml4 (root :: G)) (fun r => r = root ∨ r = k.pml4) s₁ Γ₁ root
          (Kernel.stackForUser ⟨s₁, [], k.pageNum⟩ root k.pml4).phys Γ₂ ∧
        (Kernel.stackForUser ⟨s₁, [], k.pageNum⟩ root k.pml4).phys.leaf (stackTop - 0x1000) root =
          some (f + 7) ∧
        Settled (fun r => r = root ∨ r = k.pml4) Γ₁ elf size ∧
        ∀ x, elf ≤ x → x < elf + size → s₁.mem x = k.phys.mem x := by
  have hx₁ : s₁.exhausted = false := stackForUser_alive hx
  obtain ⟨Γ₁, hF⟩ : ∃ Γ₁, Fresh G k.pml4 k.phys Γ k.phys.kmalloc.1 root s₁ Γ₁ := by
    have := fresh_of_kmalloc h.typed (c := k.cr3) (by rw [hnew]; exact hx₁)
    rwa [hnew] at this
  have hne : root ≠ k.pml4 := by
    intro hc
    have := h.typed.root (Or.inl rfl : (userShape k.pml4 G).Root _)
    rw [← hc, hF.rootNew] at this
    cases this
  have hP₁ : Populates (userShape k.pml4 (root :: G)) (fun r => r = root ∨ r = k.pml4) s₁ Γ₁ root
      s₁ Γ₁ :=
    ⟨.refl hF.builds.typed, fun v e hv he => by rw [hF.empty v hv] at he; cases he⟩
  obtain ⟨hm₂, Γ₂, hP₂, f, -, hleaf⟩ := stackForUser_populates (l := ⟨s₁, [], k.pageNum⟩) hP₁
    List.mem_cons_self (Or.inl rfl) (Or.inr rfl) hne (by simp [UserPages]) hx
  -- the archive lies in the kernel image
  have harch₀ : ∀ x, elf ≤ x → x < elf + size → Γ (x / 4096 * 4096) = .kernel := fun x hx hx' =>
    h.image _ (by omega) (by omega)
  refine ⟨hm₂, Γ₁, Γ₂, f, hF, hP₂, hleaf, fun x hx hx' => ?_, fun x hx hx' => ?_⟩
  · have := harch₀ x hx hx'
    rw [hF.builds.ext _ (by simp [this]), this]
    simp
  · have := harch₀ x hx hx'
    exact hF.builds.mem (x / 4096 * 4096) (by simp [this]) (by simp [this]) x (by omega) (by omega)

/-- **The address space that `exec` has built when `loadFile` returns**, on a fresh record and a
fresh root. -/
theorem Inv.loaded (h : Inv image Γ L D G k) {elf size : Nat} (helf : elf + size ≤ image)
    (hL : Loadable k.phys.mem elf size)
    (hx : (k.execLoader (some (elf, size))).2.2.phys.exhausted = false) :
    (k.execLoader (some (elf, size))).2.1 ≠ 0 ∧
      UserPages (k.execLoader (some (elf, size))).2.2.mmap ∧
      ∃ s₁ Γ₁ Γ', Fresh G k.pml4 k.phys Γ k.phys.kmalloc.1
          (k.execLoader (some (elf, size))).1 s₁ Γ₁ ∧
        Populates (userShape k.pml4 ((k.execLoader (some (elf, size))).1 :: G))
          (fun r => r = (k.execLoader (some (elf, size))).1 ∨ r = k.pml4) s₁ Γ₁
          (k.execLoader (some (elf, size))).1 (k.execLoader (some (elf, size))).2.2.phys Γ' := by
  simp only [Kernel.execLoader] at hx ⊢
  obtain ⟨root, s₁, hnew⟩ : ∃ root s₁, k.phys.kmalloc.2.getNewPML4ForUser k.cr3 = (root, s₁) :=
    ⟨_, _, rfl⟩
  simp only [hnew] at hx ⊢
  obtain ⟨hm₂, Γ₁, Γ₂, -, hF, hP₂, -, harch, hmem⟩ := h.stackBuilt helf hnew (loadFile_alive hx)
  generalize Kernel.stackForUser ⟨s₁, [], k.pageNum⟩ root k.pml4 = stack at hx hm₂ hP₂ ⊢
  obtain ⟨hne₀, hm₃, Γ₃, hP₃⟩ := loadFile_populates (hL.congr hmem) harch hP₂
    (Or.inr List.mem_cons_self) (Or.inl rfl) (userShape_accepts _ _ _) rfl hm₂ hx
  exact ⟨hne₀, hm₃, s₁, Γ₁, Γ₃, hF, hP₃⟩

/-- The pages of the node, the kernel stack and the descriptors of a new task. -/
theorem Populates.records {S : Shape} {W : Nat → Prop} {s₀ s s₂ s₃ s₄ : Phys} {Γ₀ Γ : Nat → Use}
    {r a g b : Nat} (h : Populates S W s₀ Γ₀ r s Γ) (hr : S.Root r) (h₂ : s.kmalloc = (a, s₂))
    (h₃ : s₂.kmalloc = (g, s₃)) (h₄ : s₃.kmalloc = (b, s₄)) (hx : s₄.exhausted = false) :
    ∃ Γ', Populates S W s₀ Γ₀ r s₄ Γ' ∧ Γ' g = .kernel ∧ Γ₀ g = .unowned ∧ Taken s₂ s₃ g ∧
      (∀ q, Γ q ≠ .unowned → Γ' q = Γ q) ∧
      Keeps (fun q => Γ q ≠ .unowned) (fun v => pml4Index v < S.top) r s s₄ := by
  have hx₃ : s₃.exhausted = false := kmalloc_alive (by rwa [h₄])
  have hx₂ : s₂.exhausted = false := kmalloc_alive (by rwa [h₃])
  obtain ⟨Γ₄, hP₄, -, -, hext₄⟩ := h.node hr (by rwa [h₂])
  have ht₄ := (kmalloc_taken (s := s) (by rwa [h₂])).1
  simp only [h₂] at hP₄ ht₄
  obtain ⟨Γ₅, hP₅, hg₅, hg, hext₅⟩ := hP₄.node hr (by rwa [h₃])
  have ht₅ := (kmalloc_taken (s := s₂) (by rwa [h₃])).1
  simp only [h₃] at hP₅ hg₅ hg ht₅
  obtain ⟨Γ₆, hP₆, -, -, hext₆⟩ := hP₅.node hr (by rwa [h₄])
  have ht₆ := (kmalloc_taken (s := s₃) (by rwa [h₄])).1
  simp only [h₄] at hP₆ ht₆
  have h₀₄ : ∀ q, Γ q ≠ .unowned → Γ₄ q ≠ .unowned := fun q hq => by rwa [hext₄ q hq]
  have h₀₅ : ∀ q, Γ q ≠ .unowned → Γ₅ q = Γ q := fun q hq =>
    (hext₅ q (h₀₄ q hq)).trans (hext₄ q hq)
  refine ⟨Γ₆, hP₆, by rw [hext₆ g (by simp [hg₅]), hg₅], hg, ht₅, fun q hq => ?_, ?_⟩
  · rw [hext₆ q (by rwa [h₀₅ q hq]), h₀₅ q hq]
  · exact (ht₄.keeps h.builds.typed hr).trans
      (((ht₅.keeps hP₄.builds.typed hr).mono h₀₄ fun _ hv => hv).trans
        ((ht₆.keeps hP₅.builds.typed hr).mono (fun q hq => by rwa [h₀₅ q hq]) fun _ hv => hv))

/-- **How the image of a new task has come about**: a populated tree, the argument block, the push
on the user stack, and steps that leave its data pages alone. -/
def ImageBuilt (k : Kernel) (args envp : List (List UInt8)) (root : Nat) (k₂ : Kernel) : Prop :=
  ∃ (G : List Nat) (s₀ : Phys) (Γ₀ Γ₁ : Nat → Use) (l : Loader) (s₁ : Phys),
    root ∈ G ∧ Populates (userShape k.pml4 G) (fun r => r = root ∨ r = k.pml4) s₀ Γ₀ root l.phys Γ₁ ∧
    Kernel.pushUser (Kernel.argumentBlock l.phys root args envp).1 stackTop
      (0x301000 - (Kernel.argumentBlock l.phys root args envp).2 - 8) root = some s₁ ∧
    s₁.exhausted = false ∧
    ∀ Γ₃, Populates (userShape k.pml4 G) (fun r => r = root ∨ r = k.pml4) s₀ Γ₀ root s₁ Γ₃ →
      Keeps (fun q => Γ₃ q = .data) (fun v => pml4Index v < 511) root s₁ k₂.phys

/-- **What `exec` has built** before it gives the ring to the new task. -/
theorem Inv.newImage (h : Inv image Γ L D G k) {elf size : Nat} {path : List UInt8}
    {args envp : List (List UInt8)} (helf : elf + size ≤ image)
    (hL : Loadable k.phys.mem elf size) (hargs : args.length ≤ 476)
    (henvp : envp.length ≤ maxFrames) (hs : k.exec path (some (elf, size)) args envp = some k')
    (hx : k'.phys.exhausted = false) :
    ∃ root k₂ Γ', NewTask G k Γ k.phys.kmalloc.1 root k₂ Γ' ∧
      (k₂.phys.tasks (kernbase + k.phys.kmalloc.1)).pidT = k.running.pidT ∧
      k₂.deleteRunningThreadAndJump (kernbase + k.phys.kmalloc.1) = some k' ∧
      (k₂.phys.tasks (kernbase + k.phys.kmalloc.1)).regs.userRsp = stackTop - 8 ∧
      (k.execLoader (some (elf, size))).2.1 ≠ 0 ∧ ImageBuilt k args envp root k₂ := by
  unfold Kernel.exec at hs
  have hload := h.loaded helf hL
  set f := k.phys.kmalloc.1 with hf
  rcases hout : k.execLoader (some (elf, size)) with ⟨root, entryPoint, l⟩
  simp only [hout] at hs hload
  -- a failed load is excluded
  split at hs
  · next h0 =>
    rw [execFailed_exhausted hs] at hx
    exact absurd h0 (hload hx).1
  next h0 =>
  unfold Kernel.execLoaded at hs
  simp only [Option.bind_eq_bind] at hs
  obtain ⟨s₁, hpush, hs⟩ := Option.bind_eq_some_iff.mp hs
  split at hs
  · cases hs
  obtain ⟨a, s₂, h₂⟩ : ∃ a s₂, s₁.kmalloc = (a, s₂) := ⟨_, _, rfl⟩
  obtain ⟨g, s₃, h₃⟩ : ∃ g s₃, s₂.kmalloc = (g, s₃) := ⟨_, _, rfl⟩
  obtain ⟨b, s₄, h₄⟩ : ∃ b s₄, s₃.kmalloc = (b, s₄) := ⟨_, _, rfl⟩
  simp only [h₂, h₃, h₄] at hs
  set s₅ := s₄.setTask (kernbase + f) _ with hs₅
  have hx₄ : s₄.exhausted = false := by
    rw [deleteRunningThreadAndJump_exhausted hs] at hx
    dsimp only at hx
    rwa [prepareInitialKernelStack_exhausted] at hx
  have hx₃ : s₃.exhausted = false := kmalloc_alive (by rwa [h₄])
  have hx₂ : s₂.exhausted = false := kmalloc_alive (by rwa [h₃])
  have hx₁ : s₁.exhausted = false := kmalloc_alive (by rwa [h₂])
  have hxb : (Kernel.argumentBlock l.phys root args envp).1.exhausted = false := by
    rwa [pushUser_exhausted hpush] at hx₁
  obtain ⟨-, hm, s₀, Γ₀, Γ₁, hF, hP₁⟩ := hload (argumentBlock_alive hxb)
  -- the argument block, the push and the records
  have hroot : (userShape k.pml4 (root :: G)).Root root := Or.inr List.mem_cons_self
  obtain ⟨Γ₂, hP₂⟩ := argumentBlock_populates hP₁ hroot (Or.inl rfl)
    (userShape_accepts k.pml4 (root :: G) root) (by simp only [userShape]) hargs henvp hxb
  have hP₃ := pushUser_populates hP₂ hroot (by decide : pml4Index (stackTop - 8) < 511) (by decide)
    hpush
  obtain ⟨Γ₆, hP₆, hg₆, hg, hstack, -⟩ := hP₃.records hroot h₂ h₃ h₄ hx₄
  have hf₆ : Γ₆ f = .kernel := by rw [hP₆.builds.ext f (by simp [hF.record]), hF.record]
  have hfg : f ≠ g := by
    rintro rfl
    rw [hF.record] at hg
    cases hg
  have hB₆ := (hF.builds.mono fun r hr => Or.inl hr).trans hP₆.builds
  have he₇ : Edits s₄ s₅ f := setTask_edits s₄ f _
  have hB₇ := hB₆.edits he₇ hF.recordNew (by simp [hf₆]) (by simp [hf₆])
  have hrsp : (s₅.tasks (kernbase + f)).regs.kernelRsp = kernbase + g + 0x1000 := by
    rw [hs₅, setTask_self]
    rfl
  have he₈ := prepareInitialKernelStack_edits (s := s₅) hstack.lt hstack.aligned hrsp
  have hB₈ := hB₇.edits he₈ (hF.builds.new hg) (by simp [hg₆]) (by simp [hg₆])
  -- the records
  have hrun : s₄.tasks k.runningThread = k.running := by
    obtain ⟨a, ha, hΓ⟩ := h.record k.runningThread (List.mem_append_left D h.running_mem)
    rw [ha, hB₆.tasks a (by simp [hΓ]), ← ha]
    rfl
  have hzero : s₄.tasks (kernbase + f) = Task.zeroed := by
    rw [hP₆.builds.tasks f (by simp [hF.record]), hF.zeroed]
  have hrec : (s₅.prepareInitialKernelStack (s₅.tasks (kernbase + f)).regs).tasks (kernbase + f) =
      Kernel.createNewExecTask Task.zeroed k.running entryPoint root (kernbase + g + 4096)
        (kernbase + b) path (Kernel.argumentVma (kernbase + a) l.pageNum :: l.mmap) := by
    rw [he₈.tasks f hfg, hs₅, setTask_self, hzero, hrun]
  have hbuilt : ImageBuilt k args envp root
      { k with
        phys := s₅.prepareInitialKernelStack (s₅.tasks (kernbase + f)).regs
        pidCount := intSucc k.pidCount
        pageNum := intSucc l.pageNum
        foregroundPid := (s₄.tasks k.runningThread).pidT } := by
    refine ⟨root :: G, s₀, Γ₀, Γ₁, l, s₁, List.mem_cons_self, hP₁, hpush, hx₁, fun Γ₃ hP₃' => ?_⟩
    obtain ⟨Γ₆', hP₆', hg₆', -, -, hext, hkeep⟩ := hP₃'.records hroot h₂ h₃ h₄ hx₄
    have hf' : Γ₆' f = .kernel := by rw [hP₆'.builds.ext f (by simp [hF.record]), hF.record]
    have hfd : ∀ q, Γ₃ q = .data → Γ₆' q = .data := fun q hq => by rw [hext q (by simp [hq]), hq]
    have hT₅ := hP₆'.builds.typed.edits he₇ (hP₆'.builds.typed.owned f (by simp [hf'])).1
      (by simp [hf'])
    have k₅ := he₇.keeps hP₆'.builds.typed hroot (by simp [hf']) (by simp [hf'])
    have k₈ := he₈.keeps hT₅ hroot (by simp [hg₆']) (by simp [hg₆'])
    refine (hkeep.mono (fun q hq => by simp [hq]) fun v hv => hv).trans
      ((k₅.mono (fun q hq => ?_) fun v hv => hv).trans (k₈.mono (fun q hq => ?_) fun v hv => hv))
    · refine ⟨by simp [hfd q hq], fun hc => ?_⟩
      have := hfd q hq
      rw [hc, hf'] at this
      cases this
    · refine ⟨by simp [hfd q hq], fun hc => ?_⟩
      have := hfd q hq
      rw [hc, hg₆'] at this
      cases this
  refine ⟨root, _, Γ₆, ?_, by rw [hrec]; rfl, hs, by rw [hrec]; rfl, h0, hbuilt⟩
  refine ⟨hF.recordNew, hF.rootNew, hB₈, ?_, hf₆, ?_, ?_, ?_, ?_⟩
  · intro v e hv he
    have hl₇ := (Phys.leaf_congr (setTask_mem s₄ (kernbase + f) _) v root :
      s₅.leaf v root = s₄.leaf v root)
    rw [he₈.leaf hB₇.typed hstack.aligned (by simp [hg₆]) hroot hv, hl₇] at he
    exact (hP₆.leaves v e hv he).mono fun q hq => hq.1
  · rw [hrec]
    rfl
  · rw [hrec]
    exact (argumentVma_pages _ _).append hm
  · rw [hrec]
    rfl
  · exact ⟨rfl, rfl, rfl, rfl⟩

theorem Inv.execLoader_ne_zero (h : Inv image Γ L D G k) {elf size : Nat} {path : List UInt8}
    {args envp : List (List UInt8)} (helf : elf + size ≤ image)
    (hL : Loadable k.phys.mem elf size) (hargs : args.length ≤ 476)
    (henvp : envp.length ≤ maxFrames) (hs : k.exec path (some (elf, size)) args envp = some k')
    (hx : k'.phys.exhausted = false) : (k.execLoader (some (elf, size))).2.1 ≠ 0 := by
  obtain ⟨root, k₂, Γ', -, -, -, -, hne, -⟩ := h.newImage helf hL hargs henvp hs hx
  exact hne

/-- **`deleteRunningThreadAndJump`** puts the new task in the place of the running one, which
stays on the ring when it was alone there. -/
theorem Inv.replace {k₂ : Kernel} (h : Inv image Γ (r :: M) D G k)
    (hn : NewTask G k Γ f root k₂ Γ')
    (hpid : (k₂.phys.tasks (kernbase + f)).pidT = (k.phys.tasks r).pidT)
    (hs : k₂.deleteRunningThreadAndJump (kernbase + f) = some k') :
    Inv image Γ' ((kernbase + f) :: if M = [] then [r] else M) D (root :: G) k' := by
  obtain rfl := h.ring.head
  obtain ⟨hrun, hq, hp, -⟩ := hn.same
  obtain ⟨hS, htasks, hnew⟩ := h.newTask hn
  have hnext : ∀ a ∈ k.runningThread :: M ++ D, k₂.phys.next a = k.phys.next a := fun a ha =>
    congrArg Task.next (htasks a ha)
  have hring : Ring k₂.phys.next k.runningThread (k.runningThread :: M) :=
    h.ring.congr fun a ha => hnext a (List.mem_append_left D ha)
  have hnd := List.nodup_append.mp h.nodup
  have hlen := h.length_lt
  simp only [List.length_append, List.length_cons] at hlen
  set t := kernbase + f with ht
  have htr : t ≠ k.runningThread := fun hc => hnew (by simp [hc])
  have htM : t ∉ M := fun hc => hnew (by simp [hc])
  set k₃ : Kernel := { k₂ with phys := k₂.phys.setNext t (k₂.phys.next k.runningThread) } with hk₃
  replace hs : (k₃.findPred k.runningThread k.runningThread).bind (fun temp =>
      some (({ k₃ with phys := k₃.phys.setNext temp t, runningThread := t } : Kernel).activate
        t |>.moveToNextProcess t)) = some k' := by
    rw [hk₃, ← hrun]
    exact hs
  have hn₃ : k₃.phys.next = Function.update k₂.phys.next t (k₂.phys.next k.runningThread) :=
    k₂.phys.next_setNext t _
  have hring₃ : Ring k₃.phys.next k.runningThread (k.runningThread :: M) := by
    rw [hn₃]
    refine hring.congr fun a ha => Function.update_of_ne ?_ _ _
    rintro rfl
    exact hnew (List.mem_append_left D ha)
  -- the predecessor of the running task is the last one on the ring
  obtain ⟨p, hpL, hpred, hring'⟩ : ∃ p ∈ k.runningThread :: M,
      k₃.findPred k.runningThread k.runningThread = some p ∧
      Ring (Function.update k₃.phys.next p t) t (t :: if M = [] then [k.runningThread] else M) := by
    rcases List.eq_nil_or_concat M with rfl | ⟨l, p, rfl⟩
    · have hself : k₂.phys.next k.runningThread = k.runningThread := hring.seg.2
      have hself₃ : k₃.phys.next k.runningThread = k.runningThread := hring₃.seg.2
      refine ⟨k.runningThread, List.mem_cons_self,
        find_of_seg (l := []) rfl (by simp) (by simp [hself₃]) (by decide), ?_⟩
      rw [if_pos rfl, hn₃, hself]
      refine ⟨by simp, by simpa using htr, rfl, ?_, ?_⟩
      · rw [Function.update_of_ne htr, Function.update_self]
      · exact Function.update_self ..
    · rw [List.concat_eq_append] at hring hring₃ htM hlen ⊢
      obtain ⟨hfind, -⟩ := hring₃.find_last (n := walkFuel) (by
        simp only [List.length_append, List.length_cons, List.length_nil] at hlen
        omega)
      refine ⟨p, by simp, hfind, ?_⟩
      rw [if_neg (by simp), hn₃]
      exact hring.substitute (by simp only [List.mem_cons, not_or]; exact ⟨htr, htM⟩)
  rw [hpred, Option.bind_some] at hs
  obtain rfl := Option.some.inj hs
  set k₄ : Kernel := { k₃ with phys := k₃.phys.setNext p t, runningThread := t } with hk₄
  obtain ⟨h₅, hn₅, hr₅, hd₅, hp₅⟩ := Kernel.activate_relinked k₄ t
  have hrel : k₂.phys.Relinked (k₄.activate t).phys :=
    ((k₂.phys.relinked_setNext t _).trans (Phys.relinked_setNext _ p t)).trans h₅
  have hn₄ : k₄.phys.next = Function.update k₃.phys.next p t := k₃.phys.next_setNext p t
  set L' := t :: if M = [] then [k.runningThread] else M with hL'
  have hL : ∀ a ∈ L', a ∈ t :: k.runningThread :: M := by
    intro a ha
    rw [hL'] at ha
    split at ha
    · next hM => simpa [hM] using ha
    · simp only [List.mem_cons] at ha ⊢
      tauto
  refine ⟨?_, ?_, ?_, ?_, ?_, ?_⟩
  · change Spaces image Γ' L' (L' ++ D) (root :: G) (k₄.activate t).pml4 (k₄.activate t).phys
    rw [hp₅, show k₄.pml4 = k.pml4 from hp]
    refine hS.relink hrel hL (fun a ha => ?_) fun a ha => List.mem_append_left D ha
    rcases List.mem_append.mp ha with ha | ha
    · rcases List.mem_cons.mp (hL a ha) with rfl | ha
      · exact List.mem_cons_self
      · exact List.mem_cons_of_mem _ (List.mem_append_left D ha)
    · exact List.mem_cons_of_mem _ (List.mem_append_right _ ha)
  · change Ring (k₄.activate t).phys.next (k₄.activate t).runningThread L'
    rw [hn₅, hr₅, hn₄]
    exact hring'
  · change Seg (k₄.activate t).phys.next (k₄.activate t).deleteQueue D 0
    rw [hn₅, hd₅, hn₄, hn₃, show k₄.deleteQueue = k.deleteQueue from hq]
    refine ((h.queue.congr fun a ha => hnext a (List.mem_append_right _ ha)).update
      fun hc => hnew (List.mem_append_right _ hc)).update fun hc => ?_
    exact hnd.2.2 p hpL p hc rfl
  · refine List.nodup_append.mpr ⟨hring'.nodup, hnd.2.1, fun a ha b hb hab => ?_⟩
    subst hab
    rcases List.mem_cons.mp (hL a ha) with rfl | ha
    · exact hnew (List.mem_append_right _ hb)
    · exact hnd.2.2 a ha a hb rfl
  · change ((k₄.activate t).phys.tasks t).regs.cr3 =
      ((k₄.activate t).phys.tasks (k₄.activate t).runningThread).regs.cr3
    rw [hr₅]
  · obtain ⟨a, ha, hapid⟩ := h.init
    by_cases har : a = k.runningThread
    · refine ⟨t, List.mem_cons_self, ?_⟩
      change ((k₄.activate t).phys.tasks t).pidT = 1
      rw [(hrel.same t).pidT, hpid, ← har, hapid]
    · refine ⟨a, ?_, ?_⟩
      · have haM : a ∈ M := (List.mem_cons.mp ha).resolve_left har
        rw [hL', if_neg (List.ne_nil_of_mem haM)]
        exact List.mem_cons_of_mem _ haM
      · change ((k₄.activate t).phys.tasks a).pidT = 1
        rw [(hrel.same a).pidT, htasks a (List.mem_append_left D ha), hapid]

/-- **`exec`** of a file that can be loaded. -/
theorem Inv.exec (h : Inv image Γ (r :: M) D G k) {path : List UInt8}
    {found : Option (Nat × Nat)} {args envp : List (List UInt8)}
    (hok : k.Sound image (.exec path found args envp))
    (hs : k.exec path found args envp = some k') (hx : k'.phys.exhausted = false) :
    ∃ Γ' G', Inv image Γ' ((kernbase + k.phys.kmalloc.1) :: if M = [] then [r] else M) D G' k' := by
  obtain ⟨⟨elf, size, rfl, helf, hL⟩, hargs, henvp⟩ := hok
  obtain ⟨root, k₂, Γ', hn, hpid, hs, -⟩ := h.newImage helf hL hargs henvp hs hx
  refine ⟨Γ', root :: G, h.replace hn ?_ hs⟩
  rw [hpid, Kernel.running, h.ring.head]

end Sbunix
