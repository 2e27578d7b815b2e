import Sbunix.Lib.Runs
import Sbunix.Fault

/-!
# Operations on user address spaces

The specifications of what `fork`, `exec`, the page-fault handler and the release of an address
space do to page tables and data pages, one lemma for each function, over the shape of all user
trees (`userShape`): the kernel's own `pml4`, which `stackForUser` writes to, and the roots of
the tasks, with the slots of the user half.
-/

namespace Sbunix

open ByteMem Placement

variable {S : Shape} {W : Nat → Prop} {s₀ s s' : Phys} {Γ₀ Γ Γ' : Nat → Use} {r : Nat}

/-! ### Pages of an address -/

theorem and_frame_mod (x : Nat) : x &&& frame = x % 2 ^ 64 / 4096 * 4096 := by
  rw [← and_frame (Nat.mod_lt x (by decide)), ← Bits.and_lowMask x 64, Nat.and_assoc]
  rfl

/-- An address and the address of its page. -/
theorem frame_page (x : Nat) : ¬ OtherPage x (x &&& frame) := by
  unfold OtherPage
  rw [and_frame_mod]
  omega

theorem pml4Index_frame (x : Nat) : pml4Index (x &&& frame) = pml4Index x := by
  rw [pml4Index_eq, pml4Index_eq, and_frame_mod]
  omega

theorem otherPage_frame (x w : Nat) : OtherPage (x &&& frame) w ↔ OtherPage x w := by
  unfold OtherPage
  rw [and_frame_mod]
  constructor <;> intro h <;> omega

theorem leaf_frame_page (s : Phys) (x cr3 : Nat) : s.leaf (x &&& frame) cr3 = s.leaf x cr3 :=
  leaf_same_page (frame_page x) cr3

theorem translate_eq (s : Phys) (v cr3 : Nat) :
    s.translate v cr3 = (s.leaf v cr3).bind fun e =>
      if e % 2 = 1 then some (e / 4096 * 4096 + v % 4096) else none := by
  unfold Phys.translate Phys.leaf
  cases s.pageTable v cr3 with
  | none => rfl
  | some pt =>
    simp only [Option.map_some, Option.bind_some, and_present, and_frame (entry_lt _ _ _)]
    have h2 := Nat.mod_two_eq_zero_or_one (entry s.mem pt (ptIndex v))
    rcases h2 with h2 | h2 <;> simp [h2]

/-- An entry that points to a data page translates. -/
theorem translate_of_leaf {f e v cr3 : Nat} (hal : f % 4096 = 0) (hl : s.leaf v cr3 = some e)
    (he : e = f + 7 ∨ e = f + 5) : s.translate v cr3 = some (f + v % 4096) := by
  rw [translate_eq, hl, Option.bind_some, if_pos (by omega)]
  congr 2
  omega

/-! ### The shape of user trees -/

/-- The kernel's own tree and those of the roots `roots`, in the user half. Their upper entries
are below `2 ^ 56`, and those of the roots carry all three flags. -/
def userShape (pml4 : Nat) (roots : List Nat) : Shape where
  Root r := r = pml4 ∨ r ∈ roots
  top := 511
  Good r e := e < 2 ^ 56 ∧ (r = pml4 ∨ e = 0 ∨ e % 4096 = 7)

theorem userShape_accepts (pml4 : Nat) (roots : List Nat) (r : Nat) :
    (userShape pml4 roots).Accepts r user := by
  refine ⟨by decide, ⟨by decide, Or.inr (Or.inl rfl)⟩, fun f hal hlt => ?_⟩
  have hf : f / 4096 < 65536 := hlt
  rw [show 3 ||| user = 7 from rfl]
  exact ⟨by omega, Or.inr (Or.inr (by omega))⟩

theorem userShape_accepts_kernel (pml4 : Nat) (roots : List Nat) :
    (userShape pml4 roots).Accepts pml4 0 := by
  refine ⟨by decide, ⟨by decide, Or.inl rfl⟩, fun f hal hlt => ?_⟩
  have hf : f / 4096 < 65536 := hlt
  rw [show 3 ||| 0 = 3 from rfl]
  exact ⟨by omega, Or.inl rfl⟩

theorem userShape_addRoot (pml4 f : Nat) (roots : List Nat) :
    (userShape pml4 roots).addRoot f = userShape pml4 (f :: roots) := by
  simp only [Shape.addRoot, userShape, List.mem_cons, Shape.mk.injEq, and_self, and_true]
  funext r
  exact propext (by tauto)

/-! ### Mapping -/

/-- **Mapping a data page for the user.** -/
theorem mapPageForUser_spec (h : Typed S s Γ) (hr : S.Root r) (hS : S.Accepts r user) {v p : Nat}
    (hv : pml4Index v < S.top) (hp : Γ p = .data)
    (hx : (s.mapPageForUser v p r).exhausted = false) :
    ∃ Γ', Touches S r s (s.mapPageForUser v p r) Γ Γ' ∧
      (s.mapPageForUser v p r).leaf v r = some (p + 7) ∧
      ∀ w, pml4Index w < S.top → OtherPage v w →
        LeafKept (s.leaf w r) ((s.mapPageForUser v p r).leaf w r) := by
  obtain ⟨hal, hlt, -⟩ := data_aligned h hp
  have hp52 : p < 2 ^ 52 := by
    have hlt' : p / 4096 < 65536 := hlt
    omega
  exact mapWith_spec h hr hv hal hp52 hx hS

theorem mapPageForUser_alive {v p : Nat} (h : (s.mapPageForUser v p r).exhausted = false) :
    s.exhausted = false :=
  mapWith_alive h

theorem markPageAsRW_exhausted (s : Phys) (v cr3 : Nat) (rw : Bool) :
    (s.markPageAsRW v cr3 rw).exhausted = s.exhausted := by
  unfold Phys.markPageAsRW
  split <;> simp

theorem kmalloc_alive (h : s.kmalloc.2.exhausted = false) : s.exhausted = false :=
  (kmalloc_taken h).1.live

section Leaves

variable {D D' : Nat → Prop}

/-- Keeping entries keeps them good. -/
theorem Leaves.kept (h : Leaves S.top D s r) (hD : ∀ f, D f → D' f)
    (hk : ∀ w, pml4Index w < S.top → LeafKept (s.leaf w r) (s'.leaf w r)) :
    Leaves S.top D' s' r := by
  intro w e hw he
  by_cases h0 : e = 0
  · exact Or.inl h0
  · exact (h w e hw (((hk w hw).eq_some h0).mp he)).mono hD

/-- Entering a good page, or changing one entry into a good one, keeps them good. -/
theorem Leaves.set (h : Leaves S.top D s r) (hD : ∀ f, D f → D' f) {v : Nat}
    (hself : ∀ e, s'.leaf v r = some e → LeafOk D' e)
    (hk : ∀ w, pml4Index w < S.top → OtherPage v w → LeafKept (s.leaf w r) (s'.leaf w r)) :
    Leaves S.top D' s' r := by
  intro w e hw he
  by_cases hvw : OtherPage v w
  · by_cases h0 : e = 0
    · exact Or.inl h0
    · exact (h w e hw (((hk w hw hvw).eq_some h0).mp he)).mono hD
  · rw [leaf_same_page hvw] at he
    exact hself e he

/-- A root that is not built on keeps its good entries. -/
theorem Builds.leaves_other (hB : Builds S W s₀ Γ₀ s Γ) {S₀ : Shape} (h₀ : Typed S₀ s₀ Γ₀)
    (hr : S₀.Root r) (hW : ¬ W r) (h : Leaves S₀.top D s₀ r) : Leaves S₀.top D s r := by
  intro v e hv he
  rw [hB.leaf_other h₀ hr hW hv] at he
  exact h v e hv he

end Leaves

/-! ### fork -/

/-- What one round of `copyParentCr3Entries` does to the page of `v`. -/
structure CopiedPage (parent child : Nat) (stack : Bool) (v : Nat) (s s' : Phys)
    (Γ Γ' : Nat → Use) : Prop where
  /-- A page outside the stack VMA is shared, read-only. -/
  shared : stack = false → ∀ f e, Γ f = .data → (e = f + 7 ∨ e = f + 5) →
    s.leaf v parent = some e → s'.leaf v child = some (f + 5)
  absent : stack = false → (s.leaf v parent = none ∨ s.leaf v parent = some 0) → s' = s
  /-- A page of the stack VMA is copied to a new frame. -/
  copied : stack = true → ∃ f g e, Γ f = .data ∧ (e = f + 7 ∨ e = f + 5) ∧
    s.leaf v parent = some e ∧ Γ g = .unowned ∧ Γ' g = .data ∧ s'.leaf v child = some (g + 7) ∧
    ∀ x < 4096, s'.mem (g + x) = s.mem (f + x)

theorem copyParentPage_alive {cr3 parent child : Nat} {page : Vma × Nat}
    (hf : s.copyParentPage cr3 parent child page = some s') (hx : s'.exhausted = false) :
    s.exhausted = false := by
  simp only [Phys.copyParentPage] at hf
  split at hf
  · split at hf
    · obtain rfl := Option.some.inj hf
      rw [markPageAsRW_exhausted] at hx
      exact mapPageForUser_alive hx
    · obtain rfl := Option.some.inj hf
      exact hx
  · obtain ⟨src, -, rfl⟩ := Option.map_eq_some_iff.mp hf
    rw [Phys.memcpy_exhausted] at hx
    exact kmalloc_alive (mapPageForUser_alive hx)

/-- **One round of `copyParentCr3Entries`.** -/
theorem copyParentPage_spec {parent child : Nat} {page : Vma × Nat} (h : Typed S s Γ)
    (hS : S.Accepts child user) (hc : S.Root child) (hp : S.Root parent) (hne : parent ≠ child)
    (hv : pml4Index page.2 < S.top) (hleaf : Leaves S.top (IsData Γ) s parent)
    (hf : s.copyParentPage parent parent child page = some s') (hx : s'.exhausted = false) :
    ∃ Γ', Builds S (· = child) s Γ s' Γ' ∧
      (∀ w, pml4Index w < S.top → OtherPage page.2 w →
        LeafKept (s.leaf w child) (s'.leaf w child)) ∧
      CopiedPage parent child (page.1.vEnd = stackTop) page.2 s s' Γ Γ' := by
  have hvf : pml4Index (page.2 &&& frame) < S.top := by rwa [pml4Index_frame]
  simp only [Phys.copyParentPage] at hf
  split at hf
  · next hstack =>
    have hst : (decide (page.1.vEnd = stackTop)) = false := by simpa using hstack
    rw [hst]
    split at hf
    · next hphy =>
      -- the page is mapped by the parent
      obtain rfl := Option.some.inj hf
      obtain ⟨e, he⟩ : ∃ e, s.leaf page.2 parent = some e := by
        cases hl : s.leaf page.2 parent with
        | none =>
          rw [getPhysicalPageAddr_eq, hl] at hphy
          exact absurd rfl hphy.1
        | some e => exact ⟨e, rfl⟩
      have hlook : s.getPhysicalPageAddr page.2 parent = e := by
        rw [getPhysicalPageAddr_eq, he]
        rfl
      rw [hlook] at hphy hx ⊢
      obtain h0 | ⟨f, hfd, hfe⟩ := hleaf _ _ hv he
      · exact absurd h0 hphy.2
      obtain ⟨hal, hlt, -⟩ := data_aligned h hfd
      rw [(leaf_frame hal hlt hfe).1] at hx ⊢
      have hx' : (s.mapPageForUser (page.2 &&& frame) f child).exhausted = false := by
        rwa [markPageAsRW_exhausted] at hx
      obtain ⟨Γ', ht, hself, hother⟩ := mapPageForUser_spec h hc hS hvf hfd hx'
      obtain ⟨ht', hself', hother'⟩ := markPageAsRW_spec (b := true) ht.typed hc hvf
      have hB := ((Builds.refl (W := (· = child)) h).touches ht rfl).touches ht' rfl
      refine ⟨Γ', hB, fun w hw hvw => ?_, ⟨fun _ f' e' hf' he' hl => ?_, fun _ hl => ?_, by simp⟩⟩
      · rw [hother' w hw ((otherPage_frame _ _).mpr hvw)]
        exact hother w hw ((otherPage_frame _ _).mpr hvw)
      · obtain rfl : e = e' := Option.some.inj (he.symm.trans hl)
        have hff : f' = f := by
          have hal' := (data_aligned h hf').1
          rcases hfe with rfl | rfl <;> rcases he' with he' | he' <;> omega
        rw [← leaf_frame_page, hself', hself, Option.map_some, hff]
        exact congrArg some (and_makeRdOnly hal hlt).1
      · rcases hl with hl | hl
        · rw [he] at hl
          cases hl
        · exact absurd (Option.some.inj (he.symm.trans hl)) hphy.2
    · next hphy =>
      obtain rfl := Option.some.inj hf
      refine ⟨Γ, .refl h, fun _ _ _ => Or.inl rfl, ⟨fun _ f e hfd hfe hl => ?_, fun _ _ => rfl,
        by simp⟩⟩
      obtain ⟨hal, hlt, -⟩ := data_aligned h hfd
      obtain ⟨-, -, h₁, h₂⟩ := leaf_frame hal hlt hfe
      refine absurd ?_ hphy
      rw [getPhysicalPageAddr_eq, hl]
      exact ⟨h₁, h₂⟩
  · next hstack =>
    have hst : (decide (page.1.vEnd = stackTop)) = true := by simpa using hstack
    rw [hst]
    obtain ⟨src, hsrc, rfl⟩ := Option.map_eq_some_iff.mp hf
    obtain ⟨g, s₁, h₁⟩ : ∃ g s₁, s.kmalloc = (g, s₁) := ⟨_, _, rfl⟩
    rw [Phys.memcpy_exhausted] at hx
    simp only [h₁] at hsrc hx ⊢
    have hk := kmalloc_taken (s := s) (by rw [h₁]; exact mapPageForUser_alive hx)
    simp only [h₁] at hk
    have hB₁ := (Builds.refl (W := (· = child)) h).taken hk.1 (u := .data) (by simp) (by simp)
    set Γ₁ := Function.update Γ g .data with hΓ₁
    have hg₁ : Γ₁ g = .data := Function.update_self ..
    obtain ⟨Γ₂, ht, hself, hother⟩ := mapPageForUser_spec hB₁.typed hc hS hvf hg₁ hx
    set s₂ := s₁.mapPageForUser (page.2 &&& frame) g child with hs₂
    have hB₂ := hB₁.touches ht rfl
    have hg₂ : Γ₂ g = .data := ht.data g hg₁
    have hΓg : Γ g = .unowned := hk.1.unowned h
    have hal := hk.1.aligned
    -- the source is the page of the parent, which has not moved
    have hl₂ : s₂.leaf (page.2 &&& frame) parent = s.leaf page.2 parent := by
      rw [hB₂.leaf_other h hp hne hvf, leaf_frame_page]
    obtain ⟨f, e, hfd, hfe, hl, rfl⟩ : ∃ f e, Γ f = .data ∧ (e = f + 7 ∨ e = f + 5) ∧
        s.leaf page.2 parent = some e ∧ src = f := by
      cases hl : s.leaf page.2 parent with
      | none =>
        rw [translate_eq, hl₂, hl] at hsrc
        cases hsrc
      | some e =>
        obtain rfl | ⟨f, hfd, hfe⟩ := hleaf _ _ hv hl
        · rw [translate_eq, hl₂, hl] at hsrc
          cases hsrc
        · have htr := translate_of_leaf (data_aligned h hfd).1 (hl₂.trans hl) hfe
          rw [hsrc] at htr
          refine ⟨f, e, hfd, hfe, rfl, ?_⟩
          rw [Option.some.inj htr, and_frame_mod]
          omega
    have hed : Edits s₂ (s₂.memcpy src g 4096) g := memcpy_edits s₂ (le_refl g) (by omega)
    have hB₃ := hB₂.edits hed hΓg (by simp [hg₂]) (by simp [hg₂])
    have hleaf₃ : ∀ w, pml4Index w < S.top →
        (s₂.memcpy src g 4096).leaf w child = s₂.leaf w child := fun w hw =>
      hed.leaf ht.typed hal (by simp [hg₂]) hc hw
    have hsg : src ≠ g := by
      rintro rfl
      rw [hΓg] at hfd
      cases hfd
    have hsal := (data_aligned h hfd).1
    refine ⟨Γ₂, hB₃, fun w hw hvw => ?_, ⟨by simp, by simp, fun _ => ⟨src, g, e, hfd, hfe, hl, hΓg,
      hg₂, ?_, fun x hx' => ?_⟩⟩⟩
    · rw [hleaf₃ w hw, ← hk.1.leaf h hc hw]
      exact hother w hw ((otherPage_frame _ _).mpr hvw)
    · rw [hleaf₃ _ hv, ← leaf_frame_page]
      exact hself
    · rw [Phys.memcpy_mem, copy_apply _ (by omega), if_pos (by omega), Nat.add_sub_cancel_left]
      exact hB₂.mem src (by simp [hfd]) (by simp [hfd]) _ (by omega) (by omega)

theorem CopiedPage.leaf_ok {parent child v : Nat} {stack : Bool} {D : Nat → Prop}
    (h : CopiedPage parent child stack v s s' Γ Γ') (hp : Leaves S.top (IsData Γ) s parent)
    (hc : Leaves S.top D s child) (hv : pml4Index v < S.top) (hD : ∀ f, D f → IsData Γ' f)
    (hΓ : ∀ f, Γ f = .data → Γ' f = .data) {e : Nat} (he : s'.leaf v child = some e) :
    LeafOk (IsData Γ') e := by
  cases stack with
  | true =>
    obtain ⟨f, g, e', -, -, -, -, hg, hl, -⟩ := h.copied rfl
    exact Or.inr ⟨g, hg, Or.inl (Option.some.inj (he.symm.trans hl))⟩
  | false =>
    cases hl : s.leaf v parent with
    | none =>
      rw [h.absent rfl (Or.inl hl)] at he
      exact (hc v e hv he).mono hD
    | some e' =>
      obtain rfl | ⟨f, hf, hfe⟩ := hp v e' hv hl
      · rw [h.absent rfl (Or.inr hl)] at he
        exact (hc v e hv he).mono hD
      · have := h.shared rfl f e' hf hfe hl
        exact Or.inr ⟨f, hΓ f hf, Or.inr (Option.some.inj (he.symm.trans this))⟩

/-- The pages of a VMA list lie in the user half. -/
def UserPages (mmap : List Vma) : Prop :=
  ∀ vma ∈ mmap, ∀ starts, pageStarts pageFuel vma.vStart vma.vEnd = some starts →
    ∀ x ∈ starts, pml4Index x < 511

theorem mem_vmaPages {mmap : List Vma} {pages : List (Vma × Nat)} (h : vmaPages mmap = some pages)
    {page : Vma × Nat} (hp : page ∈ pages) : page.1 ∈ mmap ∧
      ∃ starts, pageStarts pageFuel page.1.vStart page.1.vEnd = some starts ∧ page.2 ∈ starts := by
  induction mmap generalizing pages with
  | nil =>
    obtain rfl : [] = pages := by simpa [vmaPages] using h
    cases hp
  | cons vma rest ih =>
    simp only [vmaPages, Option.bind_eq_bind, Option.bind_eq_some_iff, Option.pure_def,
      Option.some.injEq] at h
    obtain ⟨starts, hs, pages', hp', rfl⟩ := h
    rcases List.mem_append.mp hp with hp | hp
    · obtain ⟨x, hx, rfl⟩ := List.mem_map.mp hp
      exact ⟨by simp, starts, hs, hx⟩
    · obtain ⟨h₁, h₂⟩ := ih hp' hp
      exact ⟨by simp [h₁], h₂⟩

theorem UserPages.page {mmap : List Vma} (h : UserPages mmap) {pages : List (Vma × Nat)}
    (hp : vmaPages mmap = some pages) {page : Vma × Nat} (hm : page ∈ pages) :
    pml4Index page.2 < 511 := by
  obtain ⟨h₁, starts, h₂, h₃⟩ := mem_vmaPages hp hm
  exact h _ h₁ starts h₂ _ h₃

/-- **`copyVMA`** takes pages and touches nothing else. -/
theorem copyVMA_builds {mmap : List Vma} (h : Typed S s Γ)
    (hx : (s.copyVMA mmap).2.exhausted = false) :
    ∃ Γ', Builds S W s Γ (s.copyVMA mmap).2 Γ' ∧
      ∀ r v, S.Root r → pml4Index v < S.top → (s.copyVMA mmap).2.leaf v r = s.leaf v r := by
  suffices ∃ Γ', Builds S (fun _ => False) s Γ (s.copyVMA mmap).2 Γ' by
    obtain ⟨Γ', hB⟩ := this
    exact ⟨Γ', hB.mono fun _ hr => hr.elim, fun r v hr hv => hB.leaf_other h hr id hv⟩
  induction mmap generalizing s Γ with
  | nil => exact ⟨Γ, .refl h⟩
  | cons vma rest ih =>
    have hlive : ∀ (t : Phys) (l : List Vma), (t.copyVMA l).2.exhausted = false →
        t.exhausted = false := by
      intro t l
      induction l generalizing t with
      | nil => exact id
      | cons _ _ ih => exact fun hx => kmalloc_alive (ih _ hx)
    simp only [Phys.copyVMA] at hx ⊢
    have hB := (Builds.refl (W := fun _ => False) h).taken (kmalloc_taken (hlive _ _ hx)).1
      (u := .kernel) (by simp) (by simp)
    obtain ⟨Γ', hB'⟩ := ih hB.typed hx
    exact ⟨Γ', hB.trans hB'⟩

/-- The nodes of the copy cover the same addresses. -/
theorem copyVMA_fst (s : Phys) (mmap : List Vma) :
    (s.copyVMA mmap).1.map (fun v => (v.vStart, v.vEnd)) =
      mmap.map fun v => (v.vStart, v.vEnd) := by
  induction mmap generalizing s with
  | nil => rfl
  | cons vma rest ih => simp [Phys.copyVMA, ih]

theorem UserPages.congr {mmap mmap' : List Vma} (h : UserPages mmap)
    (hm : mmap'.map (fun v => (v.vStart, v.vEnd)) = mmap.map fun v => (v.vStart, v.vEnd)) :
    UserPages mmap' := by
  intro vma hvma
  have : (vma.vStart, vma.vEnd) ∈ mmap.map fun v => (v.vStart, v.vEnd) := by
    rw [← hm]
    exact List.mem_map.mpr ⟨vma, hvma, rfl⟩
  obtain ⟨vma', hvma', heq⟩ := List.mem_map.mp this
  obtain ⟨h₁, h₂⟩ := Prod.mk.inj heq
  rw [← h₁, ← h₂]
  exact h vma' hvma'

theorem physOf_kernbase {a : Nat} (h : a < 2 ^ 64 - kernbase) : physOf (kernbase + a) = a := by
  unfold physOf kernbase at *
  omega

@[simp] theorem prepareInitialKernelStack_exhausted (s : Phys) (regs : Registers) :
    (s.prepareInitialKernelStack regs).exhausted = s.exhausted := by
  simp only [Phys.prepareInitialKernelStack, Phys.store64_exhausted]

/-- **`_prepareInitialKernelStack`** writes to the stack page. -/
theorem prepareInitialKernelStack_edits {f : Nat} {regs : Registers} (hlt : f / 4096 < maxFrames)
    (hal : f % 4096 = 0) (h : regs.kernelRsp = kernbase + f + 0x1000) :
    Edits s (s.prepareInitialKernelStack regs) f := by
  have hlt' : f / 4096 < 65536 := hlt
  have htop : physOf regs.kernelRsp = f + 4096 := by
    rw [h, Nat.add_assoc, physOf_kernbase (by unfold kernbase; omega)]
  simp only [Phys.prepareInitialKernelStack, htop]
  exact ((((store64_edits s (by omega) (by omega)).trans
    (store64_edits _ (by omega) (by omega))).trans
    (store64_edits _ (by omega) (by omega))).trans
    (store64_edits _ (by omega) (by omega))).trans (store64_edits _ (by omega) (by omega))

/-- **One round of `makeParentCr3asReadOnly`.** -/
theorem protectPage_spec {cr3 : Nat} {q : Vma × Nat} (h : Typed S s Γ) (hr : S.Root cr3)
    (hv : pml4Index q.2 < S.top) :
    Touches S cr3 s (s.protectPage cr3 q) Γ Γ ∧
      (s.protectPage cr3 q).leaf q.2 cr3 =
        (if q.1.vEnd ≠ stackTop then (s.leaf q.2 cr3).map (· &&& makeRdOnly)
          else s.leaf q.2 cr3) ∧
      ∀ w, pml4Index w < S.top → OtherPage q.2 w →
        (s.protectPage cr3 q).leaf w cr3 = s.leaf w cr3 := by
  unfold Phys.protectPage
  split
  · obtain ⟨ht, hself, hother⟩ := markPageAsRW_spec (b := true) h hr
      (v := q.2 &&& frame) (by rwa [pml4Index_frame])
    refine ⟨ht, ?_, fun w hw hvw => hother w hw ((otherPage_frame _ _).mpr hvw)⟩
    rw [← leaf_frame_page, hself, leaf_frame_page]
    rfl
  · exact ⟨.refl h, rfl, fun _ _ _ => rfl⟩

/-- A read-only copy of a good entry is a good entry. -/
theorem LeafOk.protect {e : Nat} (h : Typed S s Γ) (he : LeafOk (IsData Γ) e) :
    LeafOk (IsData Γ) (e &&& makeRdOnly) := by
  obtain rfl | ⟨f, hf, hfe⟩ := he
  · exact Or.inl (Nat.zero_and _)
  · obtain ⟨hal, hlt, -⟩ := data_aligned h hf
    obtain ⟨h₁, h₂, -⟩ := and_makeRdOnly hal hlt
    refine Or.inr ⟨f, hf, Or.inr ?_⟩
    rcases hfe with rfl | rfl
    · exact h₁
    · exact h₂

theorem makeParentCr3asReadOnly_exhausted {cr3 : Nat} {mmap : List Vma}
    (hf : s.makeParentCr3asReadOnly mmap cr3 = some s') : s'.exhausted = s.exhausted := by
  obtain ⟨pages, -, hp⟩ := Option.bind_eq_some_iff.mp hf
  obtain rfl := Option.some.inj hp
  clear hf hp
  induction pages generalizing s with
  | nil => rfl
  | cons page pages ih =>
    rw [List.foldl_cons, ih]
    unfold Phys.protectPage
    split
    · exact markPageAsRW_exhausted s _ _ _
    · rfl

/-- **`makeParentCr3asReadOnly`** touches the running task's tree only. -/
theorem makeParentCr3asReadOnly_touches {cr3 : Nat} {mmap : List Vma} (h : Typed S s Γ)
    (htop : S.top = 511) (hr : S.Root cr3) (hpages : UserPages mmap)
    (hl : Leaves S.top (IsData Γ) s cr3) (hf : s.makeParentCr3asReadOnly mmap cr3 = some s') :
    Touches S cr3 s s' Γ Γ ∧ Leaves S.top (IsData Γ) s' cr3 := by
  obtain ⟨pages, hvp, hf⟩ := Option.bind_eq_some_iff.mp hf
  obtain rfl := Option.some.inj hf
  -- every round keeps the claim
  suffices ∀ (l : List (Vma × Nat)) (t : Phys), (∀ p ∈ l, p ∈ pages) →
      Touches S cr3 s t Γ Γ → Leaves S.top (IsData Γ) t cr3 →
      Touches S cr3 s (l.foldl (Phys.protectPage cr3) t) Γ Γ ∧
        Leaves S.top (IsData Γ) (l.foldl (Phys.protectPage cr3) t) cr3 from
    this pages s (fun _ hp => hp) (.refl h) hl
  intro l
  induction l with
  | nil => exact fun t _ ht hl => ⟨ht, hl⟩
  | cons page l ih =>
    intro t hsub ht hl
    have hv : pml4Index page.2 < S.top := htop ▸ hpages.page hvp (hsub page (by simp))
    obtain ⟨ht', hself, hother⟩ := protectPage_spec (q := page) ht.typed hr hv
    refine ih _ (fun p hp => hsub p (by simp [hp])) (ht.trans ht')
      (hl.set (fun _ hf => hf) (fun e he => ?_) fun w hw hvw => Or.inl (hother w hw hvw))
    rw [hself] at he
    split at he
    · obtain ⟨e', he', rfl⟩ := Option.map_eq_some_iff.mp he
      exact (hl _ _ hv he').protect ht.typed
    · exact hl _ _ hv he

/-! ### What stays -/

section Keeps

variable {s'' : Phys} {f v : Nat} {P Q V U : Nat → Prop}

/-- **What a step leaves alone**: the bytes of the pages `P`, and the entries of the addresses
`V` under the root `r`. -/
structure Keeps (P V : Nat → Prop) (r : Nat) (s s' : Phys) : Prop where
  mem : ∀ f, P f → ∀ x, f ≤ x → x < f + 4096 → s'.mem x = s.mem x
  leaf : ∀ v, V v → LeafKept (s.leaf v r) (s'.leaf v r)

theorem Keeps.refl (P V : Nat → Prop) (r : Nat) (s : Phys) : Keeps P V r s s :=
  ⟨fun _ _ _ _ _ => rfl, fun _ _ => Or.inl rfl⟩

theorem Keeps.trans (h : Keeps P V r s s') (h' : Keeps P V r s' s'') : Keeps P V r s s'' :=
  ⟨fun f hf x hx hx' => (h'.mem f hf x hx hx').trans (h.mem f hf x hx hx'),
    fun v hv => (h.leaf v hv).trans (h'.leaf v hv)⟩

theorem Keeps.mono (h : Keeps P V r s s') (hP : ∀ f, Q f → P f) (hV : ∀ v, U v → V v) :
    Keeps Q U r s s' :=
  ⟨fun f hf => h.mem f (hP f hf), fun v hv => h.leaf v (hV v hv)⟩

theorem Taken.keeps (ht : Taken s s' f) (h : Typed S s Γ) (hr : S.Root r) :
    Keeps (fun g => Γ g ≠ .unowned) (fun v => pml4Index v < S.top) r s s' where
  mem g hg x hx hx' := by
    refine ht.mem x fun hc => hg ?_
    have hgf : g = f := by
      have h1 := (h.owned g hg).1
      have h2 := ht.aligned
      omega
    rw [hgf]
    exact ht.unowned h
  leaf v hv := Or.inl (ht.leaf h hr hv)

theorem Edits.keeps (he : Edits s s' f) (h : Typed S s Γ) (hr : S.Root r) (hf : Γ f ≠ .unowned)
    (hΓ : ∀ r p, Γ f ≠ .table r p) :
    Keeps (fun g => Γ g ≠ .unowned ∧ g ≠ f) (fun v => pml4Index v < S.top) r s s' where
  mem g hg x hx hx' := by
    refine he.mem x fun hc => hg.2 ?_
    have h1 := (h.owned g hg.1).1
    have h2 := (h.owned f hf).1
    omega
  leaf v hv := Or.inl (he.leaf h (h.owned f hf).1 hΓ hr hv)

theorem mapPageForUser_keeps (h : Typed S s Γ) (hr : S.Root r) (hS : S.Accepts r user)
    (hv : pml4Index v < S.top) (hf : Γ f = .data)
    (hx : (s.mapPageForUser v f r).exhausted = false) :
    Keeps (fun g => Γ g = .data) (fun w => pml4Index w < S.top ∧ OtherPage v w) r s
      (s.mapPageForUser v f r) := by
  obtain ⟨Γ', ht, -, hother⟩ := mapPageForUser_spec h hr hS hv hf hx
  refine ⟨fun g hg x hx hx' => ?_, fun w hw => hother w hw.1 hw.2⟩
  obtain ⟨hal, -, hused⟩ := data_aligned h hg
  have hpage : x / 4096 * 4096 = g := by omega
  refine ht.mem x (fun hfree => absurd (by rwa [← hpage, Nat.mul_div_cancel _ (by decide)]) hused)
    fun p hp => ?_
  rw [hpage, hg] at hp
  cases hp

end Keeps

end Sbunix
