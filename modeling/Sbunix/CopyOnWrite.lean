import Sbunix.UserStores
import Sbunix.FatalFaults
import Sbunix.Lib.Sharing
import Mathlib.Data.List.Pairwise

/-!
# Copy-on-write is an eager copy

A reference system keeps a memory of its own for every task (`Ref`): `fork` copies all of it at
once, and a store changes the memory of its task only. The kernel shares the pages of parent and
child, read-only, copies the page of the stack, and lets `_hndlr_isr14` copy the others at the
first store.

The invariant (`Cow`) is that rights are exclusive (`Sharing.Exclusive`): a data page is found at
one page of the address spaces only, and who may write to it is alone with it. What makes it hold
after `fork` is the layout of the VMAs (`Layout`).

## Main results

* `Cow.fork`, `Cow.timer`, `Cow.store` — the step lemmas, with what every task reads afterwards;
* `fork_deep_copy` — along every run every task reads what it reads in the reference system, and
  every store to a present page comes through, where no VMA has the page that the handler takes for
  the border of the stack;
* `border_page_not_copied` — with that page in a VMA, a child cannot store to it.
-/

namespace Sbunix

open ByteMem Chain Runs Sharing

/-! ### The layout of the VMAs -/

/-- The bounds of the VMAs. -/
def bounds (mmap : List Vma) : List (Nat × Nat) := mmap.map fun v => (v.vStart, v.vEnd)

/-- A user address whose upper bits extend bit 47. -/
def UserAddress (x : Nat) : Prop :=
  (x < 2 ^ 47 ∨ 2 ^ 64 - 2 ^ 47 ≤ x) ∧ x < 2 ^ 64 ∧ pml4Index x < 511

/-- **Disjoint VMAs of whole pages**, one of them the page of the stack. -/
structure Layout (b : List (Nat × Nat)) : Prop where
  nonempty : ∀ p ∈ b, p.1 < p.2
  aligned : ∀ p ∈ b, p.1 % 4096 = 0 ∧ p.2 % 4096 = 0
  user : ∀ p ∈ b, ∀ x, p.1 ≤ x → x < p.2 → UserAddress x
  disjoint : b.Pairwise fun p q => p.2 ≤ q.1 ∨ q.2 ≤ p.1
  stack : (stackTop - 0x1000, stackTop) ∈ b

/-- Some VMA has the page of `v`. -/
def InBounds (b : List (Nat × Nat)) (v : Nat) : Prop :=
  ∃ p ∈ b, ∃ x, p.1 ≤ x ∧ x < p.2 ∧ ¬ OtherPage x v

/-- No VMA has the page that `_hndlr_isr14` takes for the border of the stack. -/
def NoBorder (b : List (Nat × Nat)) : Prop :=
  ∀ p ∈ b, ¬ (p.1 ≤ Kernel.stackBorder ∧ Kernel.stackBorder < p.2)

variable {image : Nat} {Γ Γ' : Nat → Use} {L M D G : List Nat} {k k' : Kernel} {r v w : Nat}
  {b : List (Nat × Nat)} {mmap : List Vma} {pages : List (Vma × Nat)}

/-- Addresses of one page of the 48-bit space lie on one page. -/
theorem UserAddress.page {x y : Nat} (hx : UserAddress x) (hy : UserAddress y)
    (h : ¬ OtherPage x y) : x / 4096 = y / 4096 := by
  obtain ⟨hx₁, hx₂, hx₃⟩ := hx
  obtain ⟨hy₁, hy₂, hy₃⟩ := hy
  rw [pml4Index_eq] at hx₃ hy₃
  have := not_not.mp h
  omega

theorem Layout.eq_or_disjoint (h : Layout b) {p q : Nat × Nat} (hp : p ∈ b) (hq : q ∈ b) :
    p = q ∨ p.2 ≤ q.1 ∨ q.2 ≤ p.1 := by
  by_cases hne : p = q
  · exact Or.inl hne
  · have hsymm : Std.Symm fun p q : Nat × Nat => p.2 ≤ q.1 ∨ q.2 ≤ p.1 := ⟨fun _ _ => Or.symm⟩
    exact Or.inr (h.disjoint.forall hp hq hne)

/-- The page that is taken for the border is a page of no VMA. -/
theorem Layout.not_border (h : Layout b) (hb : NoBorder b) (hv : InBounds b v) :
    v &&& frame ≠ Kernel.stackBorder := by
  intro hc
  obtain ⟨p, hp, x, hx, hx', hxv⟩ := hv
  have hborder : UserAddress Kernel.stackBorder := by
    refine ⟨by decide, by decide, by decide⟩
  have hsame : ¬ OtherPage x Kernel.stackBorder := by
    rw [← hc]
    exact fun ho => hxv ((otherPage_frame v x).mp ho.symm).symm
  have hpage := (h.user p hp x hx hx').page hborder hsame
  obtain ⟨h₁, h₂⟩ := h.aligned p hp
  have h₃ : Kernel.stackBorder % 4096 = 0 := by decide
  exact hb p hp ⟨by omega, by omega⟩

/-! ### The pages that the loops visit -/

/-- A loop over a VMA of whole pages visits every page. -/
theorem pageStarts_covers {fuel start vEnd x : Nat} {l : List Nat} (hv : vEnd + 4096 ≤ 2 ^ 64)
    (hal : start % 4096 = 0) (h : pageStarts fuel start vEnd = some l) (hx : start ≤ x)
    (hx' : x < vEnd) : ∃ y ∈ l, y / 4096 = x / 4096 := by
  induction fuel generalizing start l with
  | zero => cases h
  | succ fuel ih =>
    rw [pageStarts, if_pos (by omega)] at h
    obtain ⟨l', hl', rfl⟩ := Option.map_eq_some_iff.mp h
    by_cases hin : x < start + 0x1000
    · exact ⟨start, List.mem_cons_self, by omega⟩
    · rw [Nat.mod_eq_of_lt (by omega)] at hl'
      obtain ⟨y, hy, hxy⟩ := ih (by omega) hl' (by omega)
      exact ⟨y, List.mem_cons_of_mem _ hy, hxy⟩

theorem vmaPages_mem (h : vmaPages mmap = some pages) {vma : Vma} (hm : vma ∈ mmap) :
    ∃ starts, pageStarts pageFuel vma.vStart vma.vEnd = some starts ∧
      ∀ x ∈ starts, (vma, x) ∈ pages := by
  induction mmap generalizing pages with
  | nil => cases hm
  | cons vma' rest ih =>
    simp only [vmaPages, Option.bind_eq_bind, Option.bind_eq_some_iff, Option.pure_def,
      Option.some.injEq] at h
    obtain ⟨starts, hs, pages', hp, rfl⟩ := h
    rcases List.mem_cons.mp hm with rfl | hm
    · exact ⟨starts, hs, fun x hx => List.mem_append_left _ (List.mem_map.mpr ⟨x, hx, rfl⟩)⟩
    · obtain ⟨starts', hs', hall⟩ := ih hp hm
      exact ⟨starts', hs', fun x hx => List.mem_append_right _ (hall x hx)⟩

/-- The page of the stack. -/
def stackPage : Nat := pageOf (stackTop - 0x1000)

theorem Layout.bound (h : Layout b) {p : Nat × Nat} (hp : p ∈ b) : p.2 + 4096 ≤ 2 ^ 64 := by
  have hne := h.nonempty p hp
  obtain ⟨-, hlt, hidx⟩ := h.user p hp (p.2 - 1) (by omega) (by omega)
  rw [pml4Index_eq] at hidx
  omega

/-- A loop visits the pages of the VMAs, -/
theorem Layout.visited (h : Layout (bounds mmap)) (hvp : vmaPages mmap = some pages)
    (hv : InBounds (bounds mmap) v) : ∃ b, Visited pages b v := by
  obtain ⟨p, hp, x, hx, hx', hxv⟩ := hv
  have hal := (h.aligned p hp).1
  have hbound := h.bound hp
  obtain ⟨vma, hvma, rfl⟩ := List.mem_map.mp hp
  obtain ⟨starts, hs, hall⟩ := vmaPages_mem hvp hvma
  obtain ⟨y, hy, hxy⟩ := pageStarts_covers hbound hal hs hx hx'
  refine ⟨_, (vma, y), hall y hy, ?_, rfl⟩
  unfold OtherPage at hxv ⊢
  dsimp only
  omega

/-- … and it takes the page of the stack, and no other, for the stack. -/
theorem Layout.visited_stack (h : Layout (bounds mmap)) (hvp : vmaPages mmap = some pages)
    {stack : Bool} (hv : Visited pages stack v) : stack = true ↔ pageOf v = stackPage := by
  obtain ⟨⟨vma, x⟩, hq, hxv, hstack⟩ := hv
  obtain ⟨hvma, starts, hs, hx⟩ := mem_vmaPages hvp hq
  dsimp only at hvma hs hx hxv hstack
  have hp : (vma.vStart, vma.vEnd) ∈ bounds mmap := List.mem_map.mpr ⟨vma, hvma, rfl⟩
  obtain ⟨hx₁, hx₂⟩ := mem_pageStarts (h.bound hp) hs hx
  have hxv' : pageOf v = pageOf x := not_not.mp hxv
  rw [hxv', ← hstack, decide_eq_true_iff]
  have htop : stackTop % 4096 = 0 ∧ 0x1000 ≤ stackTop := by decide
  constructor
  · intro hend
    rcases h.eq_or_disjoint hp h.stack with heq | hdis | hdis
    · obtain ⟨h₁, -⟩ := Prod.mk.inj heq
      unfold stackPage pageOf
      omega
    · dsimp only at hdis
      omega
    · have := h.nonempty _ hp
      dsimp only at hdis this
      omega
  · intro hpage
    have hsx := (h.user _ hp x hx₁ hx₂).page
      (h.user _ h.stack (stackTop - 0x1000) (le_refl _) (by dsimp only; omega))
      (not_not.mpr hpage.symm)
    rcases h.eq_or_disjoint hp h.stack with heq | hdis | hdis
    · exact (Prod.mk.inj heq).2
    · dsimp only at hdis
      omega
    · dsimp only at hdis
      omega

/-! ### The invariant -/

/-- **The invariant of copy-on-write.** -/
structure Cow (image : Nat) (Γ : Nat → Use) (L D G : List Nat) (k : Kernel) : Prop extends
    Inv image Γ L D G k where
  layout : ∀ a ∈ L, Layout (bounds (k.phys.tasks a).mmap) ∧ NoBorder (bounds (k.phys.tasks a).mmap)
  /-- Every page of a task lies in one of its VMAs. -/
  covered : ∀ a p f x, k.Has Γ L a p f x → ∃ v, pageOf v = p ∧
    InBounds (bounds (k.phys.tasks a).mmap) v
  exclusive : Exclusive (k.Has Γ L)

theorem InBounds.congr {v w : Nat} (h : InBounds b v) (hvw : pageOf v = pageOf w) :
    InBounds b w := by
  obtain ⟨p, hp, x, hx, hx', hxv⟩ := h
  exact ⟨p, hp, x, hx, hx', not_not.mpr (hvw.symm.trans (not_not.mp hxv))⟩

theorem Cow.inBounds {a f : Nat} {x : Bool} (h : Cow image Γ L D G k)
    (hh : k.Has Γ L a (pageOf v) f x) : InBounds (bounds (k.phys.tasks a).mmap) v := by
  obtain ⟨w, hw, hin⟩ := h.covered _ _ _ _ hh
  exact hin.congr hw

/-- **What a task reads**, address by address. -/
theorem Inv.load_congr {L' D' G' : List Nat} {a a' : Nat} (h : Inv image Γ L D G k)
    (h' : Inv image Γ' L' D' G' k') (ha : a ∈ L) (ha' : a' ∈ L') (hv : pml4Index v < 511)
    (hpage : ∀ f x, k.Has Γ L a (pageOf v) f x → ∃ g y, k'.Has Γ' L' a' (pageOf v) g y ∧
      k'.phys.mem (g + v % 4096) = k.phys.mem (f + v % 4096))
    (hnone : ∀ g y, k'.Has Γ' L' a' (pageOf v) g y → ∃ f x, k.Has Γ L a (pageOf v) f x) :
    k'.phys.load v (k'.phys.tasks a').regs.cr3 = k.phys.load v (k.phys.tasks a).regs.cr3 := by
  rcases h.has_cases ha hv with ⟨f, x, hh⟩ | ⟨hno, hload⟩
  · obtain ⟨g, y, hh', hmem⟩ := hpage f x hh
    rw [h.load_of_has hh, h'.load_of_has hh', hmem]
  · rcases h'.has_cases ha' hv with ⟨g, y, hh'⟩ | ⟨-, hload'⟩
    · obtain ⟨f, x, hh⟩ := hnone g y hh'
      exact absurd hh (hno f x)
    · rw [hload, hload']

/-! ### fork -/

/-- A page of a task of the invariant is visited, as stack exactly if it is the page of the stack. -/
theorem Cow.visited {a f : Nat} {x : Bool} (h : Cow image Γ L D G k)
    (hvp : vmaPages (k.phys.tasks a).mmap = some pages) (hh : k.Has Γ L a (pageOf v) f x) :
    (∃ stack, Visited pages stack v) ∧ (Visited pages false v ↔ pageOf v ≠ stackPage) := by
  have hlay := (h.layout a hh.1).1
  obtain ⟨stack, hvis⟩ := hlay.visited hvp (h.inBounds hh)
  refine ⟨⟨stack, hvis⟩, fun hv => ?_, fun hne => ?_⟩
  · have := hlay.visited_stack hvp hv
    simpa using this
  · cases stack with
    | false => exact hvis
    | true => exact absurd ((hlay.visited_stack hvp hvis).mp rfl) hne

theorem pageEntry_ne_zero (f : Nat) (x : Bool) : pageEntry f x ≠ 0 := by
  have := pageEntry_or f x
  omega

/-- **What the tasks that were there have after `fork`**: the parent may write to the page of its
stack only. -/
theorem Cow.has_old {root a p f : Nat} {y : Bool} (h : Cow image Γ (r :: M) D G k)
    (h' : Inv image Γ' (r :: (kernbase + k.phys.kmalloc.1) :: M) D (root :: G) k')
    (hF : Forked (r :: M) G k Γ pages root k' Γ') (ha : a ∈ r :: M) :
    k'.Has Γ' (r :: (kernbase + k.phys.kmalloc.1) :: M) a p f y ↔
      ∃ x, k.Has Γ (r :: M) a p f x ∧ y = if a = r ∧ p ≠ stackPage then false else x := by
  obtain rfl := h.ring.head
  have ha' : a ∈ k.runningThread :: (kernbase + k.phys.kmalloc.1) :: M := by
    rcases List.mem_cons.mp ha with rfl | ha
    · exact List.mem_cons_self
    · exact List.mem_cons_of_mem _ (List.mem_cons_of_mem _ ha)
  have hmem := h.running_mem
  have hcr3 : (k'.phys.tasks a).regs.cr3 = (k.phys.tasks a).regs.cr3 := (hF.same a ha).cr3
  -- the entries of the parent have lost the right to write where a loop has been
  have hleaf : ∀ v, pml4Index v < 511 →
      (a = k.runningThread ∧ Visited pages false v →
        k'.phys.leaf v (k.phys.tasks a).regs.cr3 =
          (k.phys.leaf v (k.phys.tasks a).regs.cr3).map (· &&& makeRdOnly)) ∧
      (¬ (a = k.runningThread ∧ Visited pages false v) →
        k'.phys.leaf v (k.phys.tasks a).regs.cr3 = k.phys.leaf v (k.phys.tasks a).regs.cr3) := by
    intro v hv
    by_cases har : a = k.runningThread
    · subst har
      exact ⟨fun hc => (hF.parent v hv).1 hc.2,
        fun hc => (hF.parent v hv).2 fun hvis => hc ⟨rfl, hvis⟩⟩
    · exact ⟨fun hc => absurd hc.1 har, fun _ => hF.others _ (h.root a ha).1
        (fun hc => har (h.own a ha _ hmem hc)) v hv⟩
  have hmark : ∀ g x, Γ g = .data → pageEntry g x &&& makeRdOnly = pageEntry g false := by
    intro g x hg
    obtain ⟨hal, hlt, -⟩ := data_aligned h.typed hg
    obtain ⟨h₁, h₂, -⟩ := and_makeRdOnly hal hlt
    cases x
    · exact h₂
    · exact h₁
  constructor
  · rintro ⟨-, hf', v, hv, rfl, hl'⟩
    have hal := (data_aligned h'.typed hf').1
    rw [hcr3] at hl'
    by_cases hcond : a = k.runningThread ∧ Visited pages false v
    · rw [(hleaf v hv).1 hcond] at hl'
      obtain ⟨e, he, hmask⟩ := Option.map_eq_some_iff.mp hl'
      obtain ⟨g, x, hg, rfl⟩ : ∃ g x, Γ g = .data ∧ e = pageEntry g x := by
        rcases h.leaves a ha v e hv he with rfl | ⟨g, hg, rfl | rfl⟩
        · exact absurd hmask.symm (by simpa using pageEntry_ne_zero f y)
        · exact ⟨g, true, hg, rfl⟩
        · exact ⟨g, false, hg, rfl⟩
      rw [hmark g x hg] at hmask
      obtain ⟨rfl, rfl⟩ := pageEntry_inj (data_aligned h.typed hg).1 hal hmask
      have hh : k.Has Γ (k.runningThread :: M) a (pageOf v) g x := ⟨ha, hg, v, hv, rfl, he⟩
      have hvp : vmaPages (k.phys.tasks a).mmap = some pages := by
        rw [hcond.1]
        exact hF.vmas
      exact ⟨x, hh, (if_pos ⟨hcond.1, (h.visited hvp hh).2.mp hcond.2⟩).symm⟩
    · rw [(hleaf v hv).2 hcond] at hl'
      have hh : k.Has Γ (k.runningThread :: M) a (pageOf v) f y :=
        ⟨ha, h.data_of_leaf ha hv hal hl', v, hv, rfl, hl'⟩
      refine ⟨y, hh, (if_neg fun hc => hcond ⟨hc.1, ?_⟩).symm⟩
      exact (h.visited (by rw [hc.1]; exact hF.vmas) hh).2.mpr hc.2
  · rintro ⟨x, hh, rfl⟩
    obtain ⟨-, hf, v, hv, rfl, hl⟩ := hh
    have hh : k.Has Γ (k.runningThread :: M) a (pageOf v) f x := ⟨ha, hf, v, hv, rfl, hl⟩
    refine ⟨ha', (hF.data f hf).1, v, hv, rfl, ?_⟩
    rw [hcr3]
    by_cases hcond : a = k.runningThread ∧ Visited pages false v
    · have hvp : vmaPages (k.phys.tasks a).mmap = some pages := by
        rw [hcond.1]
        exact hF.vmas
      rw [if_pos ⟨hcond.1, (h.visited hvp hh).2.mp hcond.2⟩, (hleaf v hv).1 hcond, hl,
        Option.map_some, hmark f x hf]
    · rw [if_neg fun hc => hcond ⟨hc.1, (h.visited (by rw [hc.1]; exact hF.vmas) hh).2.mpr hc.2⟩,
        (hleaf v hv).2 hcond, hl]

/-- **What the child has**: the pages of its parent, read-only, and a copy of the page of the
stack. -/
theorem Cow.has_child {root p f : Nat} {y : Bool} (h : Cow image Γ (r :: M) D G k)
    (h' : Inv image Γ' (r :: (kernbase + k.phys.kmalloc.1) :: M) D (root :: G) k')
    (hF : Forked (r :: M) G k Γ pages root k' Γ')
    (hh' : k'.Has Γ' (r :: (kernbase + k.phys.kmalloc.1) :: M) (kernbase + k.phys.kmalloc.1) p f y) :
    (y = false ∧ p ≠ stackPage ∧ ∃ x, k.Has Γ (r :: M) r p f x) ∨
      (Γ f = .unowned ∧ p = stackPage ∧ ∃ f x, k.Has Γ (r :: M) r p f x) := by
  obtain rfl := h.ring.head
  have hmem := h.running_mem
  obtain ⟨-, hf', v, hv, rfl, hl'⟩ := hh'
  have hal := (data_aligned h'.typed hf').1
  rw [hF.cr3] at hl'
  have hentry := pageEntry_ne_zero f y
  -- the parent has a page there
  obtain ⟨e, he, hne⟩ : ∃ e, k.phys.leaf v k.running.regs.cr3 = some e ∧ e ≠ 0 := by
    by_contra hc
    push Not at hc
    exact hentry (hF.space.unvisited v hv (Or.inr hc) _ hl')
  obtain ⟨g, x, hg, rfl⟩ : ∃ g x, Γ g = .data ∧ e = pageEntry g x := by
    rcases h.leaves _ hmem v e hv he with rfl | ⟨g, hg, rfl | rfl⟩
    · exact absurd rfl hne
    · exact ⟨g, true, hg, rfl⟩
    · exact ⟨g, false, hg, rfl⟩
  have hh : k.Has Γ (k.runningThread :: M) k.runningThread (pageOf v) g x :=
    ⟨hmem, hg, v, hv, rfl, he⟩
  have hgal := (data_aligned h.typed hg).1
  obtain ⟨⟨stack, hvis⟩, hiff⟩ := h.visited hF.vmas hh
  rcases hF.space.visited v g _ hv hg (pageEntry_or g x) he ⟨stack, hvis⟩ with
    ⟨hvis', hl⟩ | ⟨hvis', hnew, hl, -⟩
  · obtain ⟨rfl, rfl⟩ := pageEntry_inj (y := false) hal hgal (Option.some.inj (hl'.symm.trans hl))
    exact Or.inl ⟨rfl, hiff.mp hvis', x, hh⟩
  · rename_i c
    have hc := (data_aligned h'.typed hnew.1).1
    obtain ⟨rfl, rfl⟩ := pageEntry_inj (y := true) hal hc (Option.some.inj (hl'.symm.trans hl))
    exact Or.inr ⟨hnew.2, ((h.layout _ hmem).1.visited_stack hF.vmas hvis').mp rfl, g, x, hh⟩

theorem Cow.child_has {root p f : Nat} {x : Bool} (h : Cow image Γ (r :: M) D G k)
    (hF : Forked (r :: M) G k Γ pages root k' Γ') (hh : k.Has Γ (r :: M) r p f x) :
    ∃ g y, k'.Has Γ' (r :: (kernbase + k.phys.kmalloc.1) :: M) (kernbase + k.phys.kmalloc.1) p g y ∧
      ∀ z < 4096, k'.phys.mem (g + z) = k.phys.mem (f + z) := by
  obtain rfl := h.ring.head
  have hmem : kernbase + k.phys.kmalloc.1 ∈
      k.runningThread :: (kernbase + k.phys.kmalloc.1) :: M := by simp
  obtain ⟨-, hf, v, hv, rfl, hl⟩ := hh
  have hh : k.Has Γ (k.runningThread :: M) k.runningThread (pageOf v) f x :=
    ⟨h.running_mem, hf, v, hv, rfl, hl⟩
  obtain ⟨⟨stack, hvis⟩, -⟩ := h.visited hF.vmas hh
  rcases hF.space.visited v f _ hv hf (pageEntry_or f x) hl ⟨stack, hvis⟩ with
    ⟨-, hl'⟩ | ⟨-, hnew, hl', hcopy⟩
  · refine ⟨f, false, ⟨hmem, (hF.data f hf).1, v, hv, rfl, ?_⟩, fun z hz =>
      (hF.data f hf).2 _ (by omega) (by omega)⟩
    rw [hF.cr3]
    exact hl'
  · rename_i g
    refine ⟨g, true, ⟨hmem, hnew.1, v, hv, rfl, ?_⟩, hcopy⟩
    rw [hF.cr3]
    exact hl'

/-- **`fork`** keeps the invariant; nobody reads anything else than before, and the child reads what
its parent reads. -/
theorem Cow.fork {u : UserRegs} {pid : Int} (h : Cow image Γ (r :: M) D G k)
    (hs : k.fork u = some (pid, k')) (hx : k'.phys.exhausted = false) :
    ∃ Γ' G', Cow image Γ' (r :: (kernbase + k.phys.kmalloc.1) :: M) D G' k' ∧
      (∀ a ∈ r :: M, a ≠ kernbase + k.phys.kmalloc.1 ∧ ∀ v, pml4Index v < 511 →
        k'.phys.load v (k'.phys.tasks a).regs.cr3 = k.phys.load v (k.phys.tasks a).regs.cr3) ∧
      ∀ v, pml4Index v < 511 →
        k'.phys.load v (k'.phys.tasks (kernbase + k.phys.kmalloc.1)).regs.cr3 =
          k.phys.load v (k.phys.tasks r).regs.cr3 := by
  obtain ⟨Γ', root, pages, h', hF⟩ := h.toInv.forked hs hx
  have hr : r = k.runningThread := h.ring.head.symm
  -- what the tasks map afterwards, in terms of what they mapped before
  have hold := fun {a p f y} => @Cow.has_old image Γ Γ' M D G k k' r pages root a p f y h h' hF
  have hnew := fun {p f y} => @Cow.has_child image Γ Γ' M D G k k' r pages root p f y h h' hF
  have hfork := fun {p f x} => @Cow.child_has image Γ Γ' M D G k k' r pages root p f x h hF
  have hmm := hF.mmap
  have hnd := (List.nodup_append.mp h'.nodup).1
  generalize kernbase + k.phys.kmalloc.1 = c at *
  have hc : c ∉ r :: M := by
    have h₁ := List.nodup_cons.mp hnd
    have h₂ := List.nodup_cons.mp h₁.2
    intro hc
    rcases List.mem_cons.mp hc with rfl | hc
    · exact h₁.1 (by simp)
    · exact h₂.1 hc
  -- a task on the new ring is the child or one of the old tasks
  have hsplit : ∀ a, a ∈ r :: c :: M → a = c ∨ a ∈ r :: M := fun a ha => by
    simp only [List.mem_cons] at ha ⊢
    tauto
  have hkeep : ∀ a ∈ r :: M, a ∈ r :: c :: M := fun a ha => by
    simp only [List.mem_cons] at ha ⊢
    tauto
  have hbounds : ∀ a ∈ r :: M, bounds (k'.phys.tasks a).mmap = bounds (k.phys.tasks a).mmap :=
    fun a ha => by rw [(hF.same a ha).mmap]
  have hbounds' : bounds (k'.phys.tasks c).mmap = bounds (k.phys.tasks r).mmap := by
    rw [hr]
    exact hmm
  have hmem : r ∈ r :: M := List.mem_cons_self
  refine ⟨Γ', root :: G, ⟨h', fun a ha => ?_, fun a p f x hh => ?_, ?_⟩, fun a ha =>
    ⟨fun hac => hc (hac ▸ ha), fun v hv => ?_⟩, fun v hv => ?_⟩
  · rcases hsplit a ha with rfl | ha
    · rw [hbounds']
      exact h.layout r hmem
    · rw [hbounds a ha]
      exact h.layout a ha
  · rcases hsplit a hh.1 with rfl | ha
    · rw [hbounds']
      rcases hnew hh with ⟨-, -, x', hh'⟩ | ⟨-, -, f', x', hh'⟩
      · exact h.covered _ _ _ _ hh'
      · exact h.covered _ _ _ _ hh'
    · rw [hbounds a ha]
      obtain ⟨x', hh', -⟩ := (hold ha).mp hh
      exact h.covered _ _ _ _ hh'
  -- a page that is writable in one task is mapped by no other: `fork` has protected what is shared
  · refine @Exclusive.fork _ _ _ _ _ r c h.exclusive (· ≠ stackPage) stackPage
      (fun f => Γ f = .unowned) (fun a p f x hac hh => ?_) (fun p f x hh hp => ?_)
      (fun p f x hh => ?_) fun a p f x hh hf => ?_
    · have ha := (hsplit a hh.1).resolve_left hac
      obtain ⟨x', hh', rfl⟩ := (hold ha).mp hh
      refine ⟨x', hh', fun hx' => ?_⟩
      split at hx'
      · cases hx'
      · exact hx'
    · obtain ⟨x', -, rfl⟩ := (hold hmem).mp hh
      exact if_pos ⟨rfl, hp⟩
    · rcases hnew hh with hshared | ⟨hf, hp, -⟩
      · exact Or.inl hshared
      · exact Or.inr ⟨hf, hp⟩
    · rw [hh.2.1] at hf
      cases hf
  -- the old tasks read what they read before
  · refine h.toInv.load_congr h' ha (hkeep a ha) hv (fun f x hh => ?_) fun g y hh => ?_
    · refine ⟨f, _, (hold ha).mpr ⟨x, hh, rfl⟩, (hF.data f hh.2.1).2 _ (by omega) ?_⟩
      have := Nat.mod_lt v (show 0 < 4096 by decide)
      omega
    · obtain ⟨x, hh', -⟩ := (hold ha).mp hh
      exact ⟨g, x, hh'⟩
  -- the child reads what its parent read, from the shared pages or from copies of the stack
  · refine h.toInv.load_congr h' hmem (by simp) hv (fun f x hh => ?_) fun g y hh => ?_
    · obtain ⟨g, y, hh', hcopy⟩ := hfork hh
      exact ⟨g, y, hh', hcopy _ (Nat.mod_lt _ (by decide))⟩
    · rcases hnew hh with ⟨-, -, x, hh'⟩ | ⟨-, -, f, x, hh'⟩
      · exact ⟨g, x, hh'⟩
      · exact ⟨f, x, hh'⟩

/-! ### Task switches -/

theorem Cow.timer {u : SwitchRegs} (h : Cow image Γ (r :: M) D G k)
    (hs : k.runNextTask u = some k') :
    Cow image Γ (M ++ [r]) D G k' ∧ k'.phys.exhausted = k.phys.exhausted ∧
      ∀ a ∈ r :: M, ∀ v, k'.phys.load v (k'.phys.tasks a).regs.cr3 =
        k.phys.load v (k.phys.tasks a).regs.cr3 := by
  obtain ⟨h', hrel⟩ := h.toInv.runNextTask hs
  have hmem : ∀ a, a ∈ M ++ [r] ↔ a ∈ r :: M := fun a => by
    simp only [List.mem_append, List.mem_cons, List.not_mem_nil, or_false]
    tauto
  have hhas : ∀ a p f x, k'.Has Γ (M ++ [r]) a p f x ↔ k.Has Γ (r :: M) a p f x := fun a p f x => by
    simp only [Kernel.Has, hmem, (hrel.same a).cr3, hrel.leaf]
  refine ⟨⟨h', fun a ha => ?_, fun a p f x hh => ?_, fun a b p q f x y ha hb => ?_⟩, hrel.exhausted,
    fun a _ v => ?_⟩
  · rw [(hrel.same a).mmap]
    exact h.layout a ((hmem a).mp ha)
  · rw [(hrel.same a).mmap]
    exact h.covered a p f x ((hhas a p f x).mp hh)
  · exact h.exclusive ((hhas a p f x).mp ha) ((hhas b q f y).mp hb)
  · rw [(hrel.same a).cr3, Phys.load, Phys.load, translate_eq, translate_eq, hrel.leaf, hrel.mem]

/-! ### Stores -/

/-- **A page of its own** for the running task keeps the invariant, and what everybody reads. -/
theorem Cow.ownPage {f g : Nat} {x : Bool} (h : Cow image Γ L D G k) (h' : Inv image Γ' L D G k')
    (hh : k.Has Γ L k.runningThread (pageOf v) f x) (ho : OwnPage Γ Γ' L v f g k k') :
    Cow image Γ' L D G k' ∧ ∀ a ∈ L, ∀ w, pml4Index w < 511 →
      k'.phys.load w (k'.phys.tasks a).regs.cr3 = k.phys.load w (k.phys.tasks a).regs.cr3 := by
  -- the new entry, and all others
  have hself : ∀ c y, k'.Has Γ' L k.runningThread (pageOf v) c y → c = g := fun c y hc => by
    have hl := Option.some.inj (hc.leaf.symm.trans ho.page.leaf)
    exact (pageEntry_inj (data_aligned h'.typed hc.2.1).1 (data_aligned h'.typed ho.page.2.1).1 hl).1
  refine ⟨⟨h', fun a ha => ?_, fun a p c y hc => ?_, ?_⟩, fun a ha w hw => ?_⟩
  · rw [ho.tasks a ha]
    exact h.layout a ha
  · rw [ho.tasks a hc.1]
    by_cases hap : a = k.runningThread ∧ p = pageOf v
    · rw [hap.1, hap.2]
      exact h.covered _ _ _ _ hh
    · exact h.covered a p c y ((ho.other a p c y hap).mp hc)
  · refine h.exclusive.set hself (fun b q c y hc hne => (ho.other b q c y hne).mp hc)
      fun b q y hb => ?_
    rcases ho.alone with ⟨rfl, halone⟩ | hg
    · obtain ⟨hq, -⟩ := h.exclusive hh hb
      exact ⟨halone b hb.1 y (hq ▸ hb), hq.symm⟩
    · rw [hb.2.1] at hg
      cases hg
  · have hoff := Nat.mod_lt w (show 0 < 4096 by decide)
    by_cases haw : a = k.runningThread ∧ pageOf w = pageOf v
    · obtain ⟨rfl, hwv⟩ := haw
      refine h.toInv.load_congr h' ha ha hw (fun c y hc => ?_) fun c y _ => ⟨f, x, hwv ▸ hh⟩
      have hcf : c = f := by
        have hl := Option.some.inj (hc.leaf.symm.trans (hwv ▸ hh).leaf)
        exact (pageEntry_inj (data_aligned h.typed hc.2.1).1
          (data_aligned h.typed hh.2.1).1 hl).1
      exact ⟨g, true, hwv ▸ ho.page, hcf ▸ ho.copy _ hoff⟩
    · refine h.toInv.load_congr h' ha ha hw (fun c y hc => ?_) fun c y hc =>
        ⟨c, y, (ho.other a _ c y haw).mp hc⟩
      exact ⟨c, y, (ho.other a _ c y haw).mpr hc, (ho.data c hc.2.1).2 _ (by omega) (by omega)⟩

/-- **A store to a page of its own** is seen by the running task, at that address only. -/
theorem Cow.writeByte {g : Nat} {c : UInt8} (h : Cow image Γ L D G k)
    (hh : k.Has Γ L k.runningThread (pageOf v) g true) :
    ∃ k', k.writeByte v c = some k' ∧ k'.phys.exhausted = k.phys.exhausted ∧
      Cow image Γ L D G k' ∧ ∀ a ∈ L, ∀ w, pml4Index w < 511 →
        k'.phys.load w (k'.phys.tasks a).regs.cr3 =
          if a = k.runningThread ∧ w % 2 ^ 48 = v % 2 ^ 48 then some c
          else k.phys.load w (k.phys.tasks a).regs.cr3 := by
  obtain ⟨k', hk', hI, hk, hhas⟩ := h.toInv.writeByte (b := c) hh
  have htasks : k'.phys.tasks = k.phys.tasks := by rw [hk]
  have hal := (data_aligned h.typed hh.2.1).1
  refine ⟨k', hk', by rw [hk],
    ⟨hI, fun a ha => ?_, fun a p f x hf => ?_, fun a b p q f x y ha hb => ?_⟩,
    fun a ha w hw => ?_⟩
  · rw [htasks]
    exact h.layout a ha
  · rw [htasks]
    exact h.covered a p f x ((hhas a p f x).mp hf)
  · exact h.exclusive ((hhas a p f x).mp ha) ((hhas b q f y).mp hb)
  -- a task reads the new byte exactly if it reads the page that was written
  · rcases h.toInv.has_cases ha hw with ⟨f, x, hf⟩ | ⟨hno, hload⟩
    · have hfal := (data_aligned h.typed hf.2.1).1
      rw [hI.load_of_has ((hhas _ _ _ _).mpr hf), h.toInv.load_of_has hf]
      have hmem : k'.phys.mem = Function.update k.phys.mem (g + v % 4096) c := by rw [hk]
      rw [hmem]
      by_cases hfg : f = g
      · -- the same page, so the same task and the same addresses
        subst hfg
        obtain ⟨rfl, hwv⟩ := h.exclusive.alone hh hf
        by_cases hoff : w % 4096 = v % 4096
        · have hsame : w % 2 ^ 48 = v % 2 ^ 48 := by
            unfold pageOf at hwv
            omega
          rw [hoff, Function.update_self, if_pos ⟨rfl, hsame⟩]
        · rw [Function.update_of_ne (by omega), if_neg]
          rintro ⟨-, hc⟩
          omega
      · rw [Function.update_of_ne (by omega), if_neg]
        rintro ⟨rfl, hwv⟩
        -- the same address in the writing task would be on the same page
        refine hfg ?_
        have hp : pageOf w = pageOf v := by
          unfold pageOf
          rw [hwv]
        have hl := Option.some.inj ((hp ▸ hf).leaf.symm.trans hh.leaf)
        exact (pageEntry_inj hfal hal hl).1
    · have hno' : k'.phys.load w (k'.phys.tasks a).regs.cr3 = none := by
        rcases hI.has_cases ha hw with ⟨f, x, hf⟩ | ⟨-, hload'⟩
        · exact absurd ((hhas _ _ _ _).mp hf) (hno f x)
        · exact hload'
      rw [hno', hload, if_neg]
      rintro ⟨rfl, hwv⟩
      have hp : pageOf w = pageOf v := by
        unfold pageOf
        rw [hwv]
      exact hno g true (hp ▸ hh)

/-- **What a store to a present page does**, and that it comes through. -/
theorem Cow.store {f : Nat} {x : Bool} {c : UInt8} (h : Cow image Γ (k.runningThread :: M) D G k)
    (hh : k.Has Γ (k.runningThread :: M) k.runningThread (pageOf v) f x) (hv : pml4Index v < 511)
    {k₁ : Kernel} (hs : k.access v true = some k₁) (hx : k₁.phys.exhausted = false) :
    ∃ k' Γ', k.userStore v c = some k' ∧ k'.phys.exhausted = false ∧
      Cow image Γ' (k.runningThread :: M) D G k' ∧
      ∀ a ∈ k.runningThread :: M, ∀ w, pml4Index w < 511 →
        k'.phys.load w (k'.phys.tasks a).regs.cr3 =
          if a = k.runningThread ∧ w % 2 ^ 48 = v % 2 ^ 48 then some c
          else k.phys.load w (k.phys.tasks a).regs.cr3 := by
  have hmem := h.running_mem
  have hborder := (h.layout _ hmem).1.not_border (h.layout _ hmem).2 (h.inBounds hh)
  -- the page is writable then, and everybody reads what he has read before
  obtain ⟨Γ', g, h₁, hrun, hh₁, hload⟩ : ∃ Γ' g, Cow image Γ' (k.runningThread :: M) D G k₁ ∧
      k₁.runningThread = k.runningThread ∧
      k₁.Has Γ' (k.runningThread :: M) k.runningThread (pageOf v) g true ∧
      ∀ a ∈ k.runningThread :: M, ∀ w, pml4Index w < 511 →
        k₁.phys.load w (k₁.phys.tasks a).regs.cr3 = k.phys.load w (k.phys.tasks a).regs.cr3 := by
    rcases h.toInv.store_access hh hv hborder hs hx with ⟨rfl, rfl⟩ | ⟨s, Γ', rfl, hw⟩
    · exact ⟨Γ, f, h, rfl, hh, fun _ _ _ _ => rfl⟩
    · obtain ⟨g, ho⟩ := h.toInv.ownPage hh hv hw
      obtain ⟨hcow, hload⟩ := h.ownPage (h.toInv.written hh.2.1 hw) hh ho
      exact ⟨Γ', g, hcow, rfl, ho.page, hload⟩
  have hh₂ : k₁.Has Γ' (k.runningThread :: M) k₁.runningThread (pageOf v) g true := by
    rw [hrun]
    exact hh₁
  have hpermits : k₁.phys.Permits v k₁.cr3 true :=
    (h₁.toInv.permits_iff (w := true) hv hh₂.leaf hh₁.2.1).mpr fun _ => rfl
  obtain ⟨k', hk', hx', hcow, hread⟩ := h₁.writeByte (c := c) hh₂
  refine ⟨k', Γ', ?_, hx'.trans hx, hcow, fun a ha w hw => ?_⟩
  · rw [Kernel.userStore, hs, Option.bind_some, if_pos ⟨hrun, hpermits⟩, hk']
  · rw [hread a ha w hw, hrun, hload a ha w hw]

/-! ### Runs -/

/-- What user programs do, and the ticks of the timer. -/
inductive UserEvent
  | fork (u : UserRegs)
  | timer (r : SwitchRegs)
  | load (v : Nat)
  | store (v : Nat) (b : UInt8)

/-- A memory of its own for every task record. -/
abbrev Ref := Nat → Nat → Option UInt8

namespace Kernel

/-- What the tasks read. -/
def reads (k : Kernel) : Ref := fun a v => k.phys.load v (k.phys.tasks a).regs.cr3

def userStep (k : Kernel) : UserEvent → Option Kernel
  | .fork u => (k.fork u).map Prod.snd
  | .timer r => k.runNextTask r
  | .load v => k.access v false
  | .store v b => k.userStore v b

/-- **The reference system**, in which the running task and the record of a new child are those of
`k`: `fork` copies all of a memory, and a store goes to the memory of the running task. -/
def refStep (k : Kernel) (ref : Ref) : UserEvent → Ref
  | .fork _ => Function.update ref (kernbase + k.phys.kmalloc.1) (ref k.runningThread)
  | .store v b => fun a w =>
    if a = k.runningThread ∧ w % 2 ^ 48 = v % 2 ^ 48 then some b else ref a w
  | _ => ref

/-- **The VMAs have the layout, and no page is shared yet.** -/
structure Private (k : Kernel) : Prop where
  layout : ∀ a, k.OnRing a → Layout (bounds (k.phys.tasks a).mmap)
  covered : ∀ a, k.OnRing a → ∀ v, pml4Index v < 511 →
    k.phys.translate v (k.phys.tasks a).regs.cr3 ≠ none →
      InBounds (bounds (k.phys.tasks a).mmap) v
  distinct : ∀ a b, k.OnRing a → k.OnRing b → ∀ v w f, pml4Index v < 511 → pml4Index w < 511 →
    k.phys.MapsTo v (k.phys.tasks a).regs.cr3 f → k.phys.MapsTo w (k.phys.tasks b).regs.cr3 f →
      a = b ∧ ¬ OtherPage v w

/-- **Every task reads what it reads in the reference system, and a store to a present page comes
through** while there are frames for a copy. -/
def DeepCopy (k : Kernel) (ref : Ref) : Prop :=
  (∀ a, k.OnRing a → ∀ v, pml4Index v < 511 → k.reads a v = ref a v) ∧
    ∀ v b, pml4Index v < 511 → k.phys.translate v k.cr3 ≠ none → k.phys.exhausted = false →
      4 ≤ (freeFrames k.phys.availFrames).card →
        ∃ k', k.userStep (.store v b) = some k' ∧ k'.phys.exhausted = false

end Kernel

/-- Both systems side by side. -/
def pairStep (p : Kernel × Ref) (e : UserEvent) : Option (Kernel × Ref) :=
  (p.1.userStep e).map fun k' => (k', p.1.refStep p.2 e)

/-- Loads and stores go to present pages, and memory lasts. -/
def UserOk (p : Kernel × Ref) (e : UserEvent) : Prop :=
  (∀ v, (e = .load v ∨ ∃ b, e = .store v b) →
    pml4Index v < 511 ∧ p.1.phys.translate v p.1.cr3 ≠ none) ∧
  ∀ k', p.1.userStep e = some k' → k'.phys.exhausted = false

/-- A present page is a page of the running task. -/
theorem Inv.has_present (h : Inv image Γ L D G k) (hv : pml4Index v < 511)
    (ht : k.phys.translate v k.cr3 ≠ none) :
    ∃ f x, k.Has Γ L k.runningThread (pageOf v) f x := by
  obtain ⟨e, f, hl, hf, rfl | rfl⟩ := h.present hv ht
  · exact ⟨f, true, h.running_mem, hf, v, hv, rfl, hl⟩
  · exact ⟨f, false, h.running_mem, hf, v, hv, rfl, hl⟩

/-- **The start.** -/
theorem Inv.cow (h : Inv image Γ L D G k) (hp : k.Private)
    (hb : ∀ a, k.OnRing a → NoBorder (bounds (k.phys.tasks a).mmap)) : Cow image Γ L D G k := by
  have hmaps : ∀ {a v f x}, k.Has Γ L a (pageOf v) f x → pml4Index v < 511 →
      k.phys.MapsTo v (k.phys.tasks a).regs.cr3 f := fun {a v f x} hh hv =>
    (Leaves.mapsTo_iff h.typed (h.leaves a hh.1) hv).mpr ⟨hh.2.1, _, hh.leaf, pageEntry_or f x⟩
  refine ⟨h, fun a ha => ⟨hp.layout a (h.onRing_iff.mpr ha), hb a (h.onRing_iff.mpr ha)⟩,
    fun a p f x hh => ?_, fun a b p q f x y ha hb => ?_⟩
  · obtain ⟨haL, hf, v, hv, rfl, hl⟩ := hh
    refine ⟨v, rfl, hp.covered a (h.onRing_iff.mpr haL) v hv ?_⟩
    rw [translate_of_leaf (data_aligned h.typed hf).1 hl (pageEntry_or f x)]
    simp
  · obtain ⟨haL, hf, v, hv, rfl, hl⟩ := id ha
    obtain ⟨hbL, -, w, hw, rfl, hl'⟩ := id hb
    obtain ⟨rfl, hsame⟩ := hp.distinct a b (h.onRing_iff.mpr haL) (h.onRing_iff.mpr hbL) v w f hv hw
      (hmaps ha hv) (hmaps hb hw)
    exact ⟨(not_not.mp hsame).symm, fun hne => absurd rfl hne⟩

/-- **The simulation, one step.** -/
theorem Cow.step {ref ref' : Ref} {e : UserEvent} (h : Cow image Γ L D G k)
    (hag : ∀ a ∈ L, ∀ v, pml4Index v < 511 → k.reads a v = ref a v) (hok : UserOk (k, ref) e)
    (hs : pairStep (k, ref) e = some (k', ref')) :
    ∃ Γ' L' G', Cow image Γ' L' D G' k' ∧
      ∀ a ∈ L', ∀ v, pml4Index v < 511 → k'.reads a v = ref' a v := by
  obtain ⟨k₁, hk₁, heq⟩ := Option.map_eq_some_iff.mp hs
  obtain ⟨rfl, rfl⟩ := Prod.mk.inj heq
  have hx := hok.2 k₁ hk₁
  dsimp only at hk₁ ⊢
  obtain ⟨M, rfl⟩ := h.ring.exists_tail
  cases e with
  | fork u =>
    obtain ⟨⟨pid, k₂⟩, hf, rfl⟩ := Option.map_eq_some_iff.mp hk₁
    obtain ⟨Γ', G', h', hold, hnew⟩ := h.fork hf hx
    refine ⟨Γ', _, G', h', fun a ha v hv => ?_⟩
    dsimp only [Kernel.refStep]
    generalize kernbase + k.phys.kmalloc.1 = c at *
    by_cases hac : a = c
    · rw [hac, Function.update_self, ← hag _ List.mem_cons_self v hv]
      exact hnew v hv
    · have ha' : a ∈ k.runningThread :: M := by
        simp only [List.mem_cons] at ha ⊢
        tauto
      rw [Function.update_of_ne hac, ← hag a ha' v hv]
      exact (hold a ha').2 v hv
  | timer r =>
    obtain ⟨h', -, hread⟩ := h.timer hk₁
    refine ⟨Γ, _, G, h', fun a ha v hv => ?_⟩
    have ha' : a ∈ k.runningThread :: M := by
      simp only [List.mem_append, List.mem_cons, List.not_mem_nil, or_false] at ha ⊢
      tauto
    exact (hread a ha' v).trans (hag a ha' v hv)
  | load v =>
    obtain ⟨hv, hpres⟩ := hok.1 v (Or.inl rfl)
    obtain ⟨f, x, hh⟩ := h.toInv.has_present hv hpres
    have hperm := (h.toInv.permits_iff (w := false) hv hh.leaf hh.2.1).mpr (by simp)
    obtain rfl : k = k₁ := by
      rw [Kernel.userStep, Kernel.access, if_pos hperm] at hk₁
      exact Option.some.inj hk₁
    exact ⟨Γ, _, G, h, hag⟩
  | store v b =>
    obtain ⟨hv, hpres⟩ := hok.1 v (Or.inr ⟨b, rfl⟩)
    obtain ⟨f, x, hh⟩ := h.toInv.has_present hv hpres
    obtain ⟨k₂, hk₂, hstore⟩ := Option.bind_eq_some_iff.mp hk₁
    have hx₂ : k₂.phys.exhausted = false := by
      split at hstore
      · obtain ⟨a, -, rfl⟩ := Option.map_eq_some_iff.mp hstore
        exact hx
      · cases hstore
    obtain ⟨k₃, Γ', hk₃, -, h', hread⟩ := h.store (c := b) hh hv hk₂ hx₂
    obtain rfl : k₃ = k₁ := Option.some.inj (hk₃.symm.trans hk₁)
    refine ⟨Γ', _, G, h', fun a ha w hw => ?_⟩
    dsimp only [Kernel.refStep]
    rw [← hag a ha w hw]
    exact hread a ha w hw

theorem Cow.deepCopy {ref : Ref} (h : Cow image Γ L D G k)
    (hag : ∀ a ∈ L, ∀ v, pml4Index v < 511 → k.reads a v = ref a v) : k.DeepCopy ref := by
  refine ⟨fun a ha => hag a (h.onRing_iff.mp ha), fun v b hv hpres hx hn => ?_⟩
  obtain ⟨M, rfl⟩ := h.ring.exists_tail
  obtain ⟨f, x, hh⟩ := h.toInv.has_present hv hpres
  have hlay := h.layout _ h.running_mem
  obtain ⟨k₁, hk₁, hx₁⟩ := h.toInv.store_access_returns hh hv
    (hlay.1.not_border hlay.2 (h.inBounds hh)) hx hn
  obtain ⟨k', -, hk', hx', -⟩ := h.store (c := b) hh hv hk₁ hx₁
  exact ⟨k', hk', hx'⟩

/-! ### The shell with its stack -/

/-- The address of the page of the stack. -/
def stackStart : Nat := stackTop - 0x1000

/-- A page and the page of the stack. -/
def twoPages (v : Nat) : List Vma := [pageVma v, pageVma stackStart]

/-- The shell with page `0x4000` at `v`, and with a stack. -/
def shellWith (v : Nat) : Kernel := (shellAt (twoPages v) v).demandZero stackStart

/-- A page of user addresses below the stack. -/
structure PageBelow (v : Nat) : Prop where
  aligned : v % 4096 = 0
  user : ∀ x, v ≤ x → x < v + 0x1000 → UserAddress x
  below : v + 0x1000 ≤ stackStart

theorem stackStart_user {x : Nat} (h₁ : stackStart ≤ x) (h₂ : x < stackStart + 0x1000) :
    UserAddress x := by
  unfold stackStart stackTop at h₁ h₂
  refine ⟨Or.inr (by omega), by omega, ?_⟩
  rw [pml4Index_eq]
  omega

theorem PageBelow.page (h : PageBelow v) : pageOf v ≠ stackPage := by
  intro hc
  have hs : UserAddress stackStart := stackStart_user (le_refl _) (by omega)
  have := (h.user v (le_refl _) (by omega)).page hs (not_not.mpr hc.symm)
  have := h.below
  omega

theorem PageBelow.layout (h : PageBelow v) : Layout (bounds (twoPages v)) := by
  have hb : bounds (twoPages v) = [(v, v + 0x1000), (stackStart, stackStart + 0x1000)] := rfl
  have hal := h.aligned
  have hbelow := h.below
  have hs : stackStart % 4096 = 0 ∧ (stackStart + 0x1000) % 4096 = 0 := by decide
  rw [hb]
  refine ⟨fun p hp => ?_, fun p hp => ?_, fun p hp x hx hx' => ?_, by simp [hbelow], ?_⟩
  · simp only [List.mem_cons, List.not_mem_nil, or_false] at hp
    rcases hp with rfl | rfl
    · dsimp only
      omega
    · dsimp only
      omega
  · simp only [List.mem_cons, List.not_mem_nil, or_false] at hp
    rcases hp with rfl | rfl
    · exact ⟨hal, by dsimp only; omega⟩
    · exact hs
  · simp only [List.mem_cons, List.not_mem_nil, or_false] at hp
    rcases hp with rfl | rfl
    · exact h.user x hx hx'
    · exact stackStart_user hx hx'
  · have htop : stackStart + 0x1000 = stackTop := by decide
    rw [← htop]
    exact List.mem_cons_of_mem _ (List.mem_singleton_self _)

theorem PageBelow.vmaPages (h : PageBelow v) :
    vmaPages (twoPages v) = some [(pageVma v, v), (pageVma stackStart, stackStart)] := by
  have hbelow := h.below
  have hs : stackStart + 0x1000 < 2 ^ 64 := by decide
  have hrest := vmaPages_pageVma hs
  rw [twoPages, Sbunix.vmaPages, hrest]
  simp only [pageVma, pageStarts_page (show v + 0x1000 < 2 ^ 64 by omega), Option.bind_eq_bind,
    Option.bind_some, Option.pure_def, List.map_cons, List.map_nil, List.cons_append,
    List.nil_append]

theorem PageBelow.userPages (h : PageBelow v) : UserPages (twoPages v) := by
  have hbelow := h.below
  have hs : stackStart + 0x1000 + 4096 ≤ 2 ^ 64 := by decide
  have h₁ : UserPages [pageVma v] := userPages_of_range
    (show v + 0x1000 + 4096 ≤ 2 ^ 64 by omega) fun x hx hx' => (h.user x hx hx').2.2
  have h₂ : UserPages [pageVma stackStart] := userPages_of_range hs fun x hx hx' =>
    (stackStart_user hx hx').2.2
  exact h₁.append h₂

/-- **The shell with its stack** meets the invariant, and its pages are its own. -/
theorem PageBelow.start (h : PageBelow v) : ∃ Γ,
    Inv 0x1000 Γ [shellTask] [] [0x2000] (shellWith v) ∧ (shellWith v).Private ∧
      (shellWith v).Has Γ [shellTask] shellTask (pageOf v) 0x4000 true ∧
      (shellWith v).running = shellRecord (twoPages v) ∧
      (shellWith v).phys.translate stackStart (shellWith v).cr3 ≠ none ∧
      (shellWith v).phys.exhausted = false ∧
      40 ≤ (freeFrames (shellWith v).phys.availFrames).card := by
  have hv : pml4Index v < 511 := (h.user v (le_refl _) (by omega)).2.2
  have hs : pml4Index stackStart < 511 := (stackStart_user (le_refl _) (by omega)).2.2
  obtain ⟨Γ₀, h₀, hf₀, hl₀, hother₀, hrun₀⟩ := shellAt_inv h.userPages hv
  have hcr3 : (shellAt (twoPages v) v).running.regs.cr3 = 0x2000 := by
    rw [hrun₀]
    rfl
  obtain ⟨hx₀, hn₀⟩ := @shellAt_alive v (twoPages v)
  have hroom : (shellWith v).phys.exhausted = false ∧
      40 ≤ (freeFrames (shellWith v).phys.availFrames).card := by
    obtain ⟨hx₁, hn₁⟩ := pageAllocator_live (k := 43) hx₀ (by omega)
    unfold shellWith Kernel.demandZero
    simp only [Phys.memset_exhausted, Phys.memset_availFrames]
    exact mapWith_alive_of_le hx₁ hn₁
  obtain ⟨Γ, g, hN, -, hI⟩ := h₀.demandZero hs hroom.1
  have hpml : (shellAt (twoPages v) v).pml4 = 0x1000 := rfl
  rw [show (shellAt (twoPages v) v).demandZero stackStart = shellWith v from rfl] at hI hN
  rw [hcr3] at hN
  have htask : (shellWith v).phys.tasks shellTask = shellRecord (twoPages v) := by
    obtain ⟨a, ha, hΓ⟩ := h₀.record shellTask (by simp)
    rw [ha, hN.builds.tasks a (by simp [hΓ]), ← ha]
    exact hrun₀
  have hrunning : (shellWith v).running = shellRecord (twoPages v) := htask
  have hroot : ((shellWith v).phys.tasks shellTask).regs.cr3 = 0x2000 := by
    rw [htask]
    rfl
  have hring : ∀ a, (shellWith v).OnRing a → a = shellTask := fun a ha =>
    List.mem_singleton.mp (hI.onRing_iff.mp ha)
  have hsplit : OtherPage stackStart v := h.page
  -- what there is of entries
  have hentry : ∀ w, pml4Index w < 511 → ∀ e, e ≠ 0 →
      (shellWith v).phys.leaf w 0x2000 = some e →
        (¬ OtherPage stackStart w ∧ e = g + 7) ∨ (¬ OtherPage v w ∧ e = 0x4007) := by
    intro w hw e he hl
    by_cases hws : OtherPage stackStart w
    · have hold := ((hN.other w hw hws).eq_some he).mp hl
      by_cases hwv : OtherPage v w
      · exact absurd (hother₀ w e hw hwv hold) he
      · rw [leaf_same_page hwv, hl₀] at hold
        exact Or.inr ⟨hwv, (Option.some.inj hold).symm⟩
    · rw [leaf_same_page hws, hN.leaf] at hl
      exact Or.inl ⟨hws, (Option.some.inj hl).symm⟩
  have hmaps : ∀ w f, pml4Index w < 511 →
      (shellWith v).phys.MapsTo w ((shellWith v).phys.tasks shellTask).regs.cr3 f →
        (¬ OtherPage stackStart w ∧ f = g) ∨ (¬ OtherPage v w ∧ f = 0x4000) := by
    intro w f hw hm
    obtain ⟨hf, e, hl, hfe⟩ :=
      (Leaves.mapsTo_iff hI.typed (hI.leaves shellTask (by simp)) hw).mp hm
    have hfal := (data_aligned hI.typed hf).1
    have hgal := (data_aligned hI.typed hN.new.1).1
    rw [hroot] at hl
    rcases hentry w hw e (by omega) hl with ⟨hws, rfl⟩ | ⟨hwv, rfl⟩
    · exact Or.inl ⟨hws, by omega⟩
    · exact Or.inr ⟨hwv, by omega⟩
  have hgne : g ≠ 0x4000 := by
    rintro rfl
    have := hN.new.2
    rw [hf₀] at this
    cases this
  have hbounds : bounds ((shellWith v).phys.tasks shellTask).mmap = bounds (twoPages v) := by
    rw [htask]
    rfl
  refine ⟨Γ, hI, ⟨fun a ha => ?_, fun a ha w hw htr => ?_, fun a b ha hb w w' f hw hw' hm hm' => ?_⟩,
    ⟨by simp, hN.builds.data _ hf₀, v, hv, rfl, ?_⟩, hrunning, ?_, hroom⟩
  · rw [hring a ha, hbounds]
    exact h.layout
  · rw [hring a ha, hroot, translate_eq] at htr
    rw [hring a ha, hbounds]
    obtain ⟨e, he, hne⟩ : ∃ e, (shellWith v).phys.leaf w 0x2000 = some e ∧ e ≠ 0 := by
      cases hl : (shellWith v).phys.leaf w 0x2000 with
      | none =>
        rw [hl] at htr
        exact absurd rfl htr
      | some e =>
        refine ⟨e, rfl, ?_⟩
        rintro rfl
        rw [hl] at htr
        exact absurd rfl htr
    rcases hentry w hw e hne he with ⟨hws, -⟩ | ⟨hwv, -⟩
    · exact ⟨(stackStart, stackStart + 0x1000), by simp [bounds, twoPages, pageVma], stackStart,
        le_refl _, by dsimp only; omega, hws⟩
    · exact ⟨(v, v + 0x1000), by simp [bounds, twoPages, pageVma], v, le_refl _,
        by dsimp only; omega, hwv⟩
  · obtain rfl := hring a ha
    obtain rfl := hring b hb
    refine ⟨rfl, ?_⟩
    rcases hmaps w f hw hm with ⟨h₁, hf₁⟩ | ⟨h₁, hf₁⟩ <;>
      rcases hmaps w' f hw' hm' with ⟨h₂, hf₂⟩ | ⟨h₂, hf₂⟩
    · exact not_not.mpr ((not_not.mp h₂).trans (not_not.mp h₁).symm)
    · exact absurd (hf₁.symm.trans hf₂) hgne
    · exact absurd (hf₂.symm.trans hf₁) hgne
    · exact not_not.mpr ((not_not.mp h₂).trans (not_not.mp h₁).symm)
  · rw [hroot]
    exact ((hN.other v hv hsplit).eq_some (by decide)).mpr hl₀
  · rw [hI.cr3, hrunning, show (shellRecord (twoPages v)).regs.cr3 = 0x2000 from rfl,
      translate_of_leaf (data_aligned hI.typed hN.new.1).1 hN.leaf (Or.inl rfl)]
    simp

/-- It forks, with frames left. -/
theorem PageBelow.forks (h : PageBelow v) : ∃ pid k',
    (shellWith v).fork entryRegs = some (pid, k') ∧ k'.phys.exhausted = false ∧
      20 ≤ (freeFrames k'.phys.availFrames).card := by
  obtain ⟨Γ, hI, -, -, hrun, hstack, hx, hn⟩ := h.start
  have hmm : (shellWith v).running.mmap = twoPages v := by
    rw [hrun]
    rfl
  have hbelow := h.below
  refine hI.fork_returns (m := 20) entryRegs (by rw [hmm, h.vmaPages]) (fun q hq hend => ?_) hx ?_
  · simp only [List.mem_cons, List.not_mem_nil, or_false] at hq
    rcases hq with rfl | rfl
    · -- the other page does not end where the stack does
      have htop : stackStart < stackTop := by decide
      have : v + 0x1000 = stackTop := hend
      omega
    · rw [hI.cr3] at hstack
      exact hstack
  · rw [hmm]
    exact Nat.le_trans (show 20 + 3 + 4 * 2 + 2 ≤ 40 by decide) hn

/-- An address below the stack. -/
theorem pageBelow_text : PageBelow 0x400000 := by
  refine ⟨by decide, fun x h₁ h₂ => ⟨Or.inl (by omega), by omega, ?_⟩, by decide⟩
  rw [pml4Index_eq]
  omega

theorem pageBelow_border : PageBelow Kernel.stackBorder := by
  unfold Kernel.stackBorder
  refine ⟨by decide, fun x h₁ h₂ => ⟨Or.inr (by omega), by omega, ?_⟩, by decide⟩
  rw [pml4Index_eq]
  omega

/-- The shell forks and stores to a page that it shares with its child then. -/
theorem PageBelow.run (h : PageBelow v) (hb : NoBorder (bounds (twoPages v))) : ∃ p,
    Run pairStep UserOk (shellWith v, (shellWith v).reads)
      [.fork entryRegs, .store v 7, .timer tickRegs] p := by
  obtain ⟨Γ, hI, hp, hh, hrun, -⟩ := h.start
  obtain ⟨pid, k₁, hs₁, hx₁, hn₁⟩ := h.forks
  have hv : pml4Index v < 511 := (h.user v (le_refl _) (by omega)).2.2
  have hcow : Cow 0x1000 Γ [shellTask] [] [0x2000] (shellWith v) := by
    refine hI.cow hp fun a ha => ?_
    obtain rfl := List.mem_singleton.mp (hI.onRing_iff.mp ha)
    rw [show (shellWith v).phys.tasks shellTask = shellRecord (twoPages v) from hrun]
    exact hb
  obtain ⟨Γ₁, G₁, hcow₁, hold, -⟩ := hcow.fork hs₁ hx₁
  have hhead : k₁.runningThread = shellTask := hcow₁.ring.head
  -- the page is still there
  have hpres : k₁.phys.translate v k₁.cr3 ≠ none := by
    have hload := (hold shellTask (by simp)).2 v hv
    rw [hI.load_of_has hh, Phys.load] at hload
    rw [hcow₁.cr3, Kernel.running, hhead]
    intro hc
    rw [hc] at hload
    cases hload
  have hag : ∀ a ∈ [shellTask, kernbase + (shellWith v).phys.kmalloc.1], ∀ w,
      pml4Index w < 511 → k₁.reads a w = k₁.reads a w := fun _ _ _ _ => rfl
  obtain ⟨k₂, hs₂, hx₂⟩ := (hcow₁.deepCopy hag).2 v 7 hv hpres hx₁ (by omega)
  have hok : ∀ ref : Ref, UserOk (k₁, ref) (.store v 7) := fun ref => by
    refine ⟨fun w hw => ?_, fun k' hk' => ?_⟩
    · rcases hw with hw | ⟨b, hw⟩
      · cases hw
      · cases hw
        exact ⟨hv, hpres⟩
    · obtain rfl := Option.some.inj (hs₂.symm.trans hk')
      exact hx₂
  have hstep : ∀ ref : Ref, pairStep (k₁, ref) (.store v 7) =
      some (k₂, k₁.refStep ref (.store v 7)) := fun ref => by rw [pairStep, hs₂, Option.map_some]
  obtain ⟨Γ₂, L₂, G₂, hcow₂, -⟩ := hcow₁.step hag (hok k₁.reads) (hstep k₁.reads)
  obtain ⟨k₃, hs₃, -⟩ := hcow₂.toInv.runNextTask_eq tickRegs
  obtain ⟨M, rfl⟩ := hcow₂.ring.exists_tail
  have hx₃ := (hcow₂.timer hs₃).2.1.trans hx₂
  have hfork : (shellWith v).userStep (.fork entryRegs) = some k₁ := by
    rw [Kernel.userStep, hs₁, Option.map_some]
  refine ⟨_, .cons ⟨fun w hw => ?_, fun k' hk' => ?_⟩ (by rw [pairStep, hfork, Option.map_some])
    (.cons (hok _) (hstep _) (.cons ⟨fun w hw => ?_, fun k' hk' => ?_⟩
      (by rw [pairStep, Kernel.userStep, hs₃, Option.map_some]) (.nil _)))⟩
  · rcases hw with hw | ⟨b, hw⟩ <;> cases hw
  · obtain rfl := Option.some.inj (hfork.symm.trans hk')
    exact hx₁
  · rcases hw with hw | ⟨b, hw⟩ <;> cases hw
  · obtain rfl := Option.some.inj (hs₃.symm.trans hk')
    exact hx₃

/-- **On the page that is taken for the border of the stack, a store ends the task.** -/
theorem Inv.border_store (h : Inv image Γ L D G k) (hpid : k.running.pidT ≠ 1) {f : Nat}
    (hh : k.Has Γ L k.runningThread (pageOf v) f false) (hv : pml4Index v < 511)
    (hb : v &&& frame = Kernel.stackBorder) (c : UInt8) : k.userStore v c = none := by
  have hl : k.phys.leaf v k.running.regs.cr3 = some (pageEntry f false) := hh.leaf
  have hperm : ¬ k.phys.Permits v k.cr3 true := fun hc => by
    have := (h.permits_iff (w := true) hv hl hh.2.1).mp hc rfl
    cases this
  have hpres : k.phys.translate v k.cr3 ≠ none := by
    rw [h.cr3, translate_of_leaf (data_aligned h.typed hh.2.1).1 hl (pageEntry_or f false)]
    simp
  have hcase : k.faultCase v (k.errorCode v true) = .exit := by
    rw [faultCase_present hpres hpid, if_pos (Or.inl hb)]
  have hexit : k.access v true = k.terminate k.runningThread := by
    rw [Kernel.access, if_neg hperm, Kernel.hndlrIsr14_eq, hcase]
    exact if_neg hpid
  rw [Kernel.userStore, hexit]
  cases ht : k.terminate k.runningThread with
  | none => rfl
  | some k' =>
    -- the task that runs now is another one
    obtain ⟨pages, hp⟩ := Kernel.vmaPages_of_terminate ht
    obtain ⟨k'', hk'', hdone⟩ := h.terminated h.running_mem hpid hp
    obtain rfl := Option.some.inj (hk''.symm.trans ht)
    have hne := ((mem_ringWithout (List.nodup_append.mp h.nodup).1 h.running_mem).mp
      hdone.ring.mem).2
    rw [Option.bind_some, if_neg fun hc => hne hc.1]

/-- The child of the shell runs, and has the page read-only. -/
theorem PageBelow.childStores (h : PageBelow v) : ∃ p Γ L D G,
    Run pairStep UserOk (shellWith v, (shellWith v).reads) [.fork entryRegs, .timer tickRegs] p ∧
      Inv 0x1000 Γ L D G p.1 ∧ p.1.running.pidT ≠ 1 ∧
      p.1.Has Γ L p.1.runningThread (pageOf v) 0x4000 false ∧ p.1.phys.exhausted = false ∧
      20 ≤ (freeFrames p.1.phys.availFrames).card := by
  obtain ⟨Γ, hI, -, hh, hrun, -⟩ := h.start
  obtain ⟨pid, k₁, hs₁, hx₁, hn₁⟩ := h.forks
  have hv : pml4Index v < 511 := (h.user v (le_refl _) (by omega)).2.2
  obtain ⟨Γ₁, root, pages, hI₁, hF⟩ := hI.forked hs₁ hx₁
  have hmm : (shellWith v).running.mmap = twoPages v := by
    rw [hrun]
    rfl
  have hlay : Layout (bounds (shellWith v).running.mmap) := by
    rw [hmm]
    exact h.layout
  -- the page is shared, since it is not the page of the stack
  have hlv : (shellWith v).phys.leaf v (shellWith v).running.regs.cr3 =
      some (pageEntry 0x4000 true) := by
    rw [Kernel.running, hI.ring.head]
    exact hh.leaf
  have hvis : Visited pages false v := by
    have hvp := hF.vmas
    rw [hmm, h.vmaPages] at hvp
    rw [← Option.some.inj hvp]
    refine ⟨(pageVma v, v), List.mem_cons_self, not_not.mpr rfl, ?_⟩
    have hbelow := h.below
    have htop : stackStart < stackTop := by decide
    exact decide_eq_false (show v + 0x1000 ≠ stackTop by omega)
  have hchild : k₁.phys.leaf v root = some (pageEntry 0x4000 false) := by
    rcases hF.space.visited v 0x4000 _ hv hh.2.1 (pageEntry_or _ _) hlv ⟨false, hvis⟩ with
      ⟨-, hl⟩ | ⟨hvis', -⟩
    · exact hl
    · exact absurd ((hlay.visited_stack hF.vmas hvis').mp rfl) h.page
  have hcr3 := hF.cr3
  have hpid := hF.pidT
  have hdata := (hF.data _ hh.2.1).1
  have hfork : (shellWith v).userStep (.fork entryRegs) = some k₁ := by
    rw [Kernel.userStep, hs₁, Option.map_some]
  have hmem : kernbase + (shellWith v).phys.kmalloc.1 ∈
      [shellTask, kernbase + (shellWith v).phys.kmalloc.1] := by simp
  obtain ⟨p, hp⟩ : ∃ p, p = (shellWith v).refStep (shellWith v).reads (.fork entryRegs) := ⟨_, rfl⟩
  generalize kernbase + (shellWith v).phys.kmalloc.1 = c at hI₁ hcr3 hpid hmem
  obtain ⟨k₂, hs₂, -⟩ := hI₁.runNextTask_eq tickRegs
  obtain ⟨hI₂, hrel⟩ := hI₁.runNextTask hs₂
  generalize k₂.moveToNextProcess (k₁.phys.next k₁.runningThread) = k₂ at hs₂ hI₂ hrel
  have hx₂ : k₂.phys.exhausted = false := hrel.exhausted.trans hx₁
  have hhead : k₂.runningThread = c := hI₂.ring.head
  refine ⟨_, Γ₁, _, _, _, .cons ⟨fun w hw => ?_, fun k' hk' => ?_⟩
    (by rw [pairStep, hfork, Option.map_some]) (.cons ⟨fun w hw => ?_, fun k' hk' => ?_⟩
      (by rw [pairStep, Kernel.userStep, hs₂, Option.map_some]) (.nil _)), hI₂, ?_, ?_, hx₂, ?_⟩
  · rcases hw with hw | ⟨b, hw⟩ <;> cases hw
  · obtain rfl := Option.some.inj (hfork.symm.trans hk')
    exact hx₁
  · rcases hw with hw | ⟨b, hw⟩ <;> cases hw
  · obtain rfl := Option.some.inj (hs₂.symm.trans hk')
    exact hx₂
  · rw [Kernel.running, hhead, (hrel.same c).pidT, hpid]
    have hcount : (shellWith v).pidCount = 1 := rfl
    rw [hcount]
    decide
  · refine ⟨by rw [hhead]; exact List.mem_append_left _ (List.mem_singleton_self _), hdata, v, hv,
      rfl, ?_⟩
    rw [hhead, (hrel.same c).cr3, hcr3, hrel.leaf, hchild]
  · rw [hrel.avail]
    exact hn₁

/-! ### The property -/

/-- **With that page in a VMA**, `fork` is no copy: the child of the shell cannot store to it. -/
theorem border_page_not_copied : ¬ ∀ (image : Nat) (Γ : Nat → Use) (L D G : List Nat) (k : Kernel)
    (es : List UserEvent) (p : Kernel × Ref), Inv image Γ L D G k → k.Private →
      Run pairStep UserOk (k, k.reads) es p → p.1.DeepCopy p.2 := by
  intro hall
  obtain ⟨Γ, hI, hp, -⟩ := pageBelow_border.start
  obtain ⟨p, Γ', L', D', G', hr, hI', hpid, hh, hx, hn⟩ := pageBelow_border.childStores
  have hv : pml4Index Kernel.stackBorder < 511 := by decide
  have hframe : Kernel.stackBorder &&& frame = Kernel.stackBorder := by decide
  have hcopy := hall _ _ _ _ _ _ _ _ hI hp hr
  have hpres : p.1.phys.translate Kernel.stackBorder p.1.cr3 ≠ none := fun hc => by
    rw [hI'.cr3, Kernel.running, translate_of_leaf (data_aligned hI'.typed hh.2.1).1 hh.leaf
      (pageEntry_or _ _)] at hc
    cases hc
  obtain ⟨k', hk', -⟩ := hcopy.2 Kernel.stackBorder 0 hv hpres hx (by omega)
  rw [Kernel.userStep, hI'.border_store hpid hh hv hframe] at hk'
  cases hk'

/-- **Copy-on-write `fork` is an eager copy**, whatever the tasks do, where no VMA has the page
that `_hndlr_isr14` takes for the border of the stack. -/
theorem fork_deep_copy {es : List UserEvent} {p : Kernel × Ref} (h : Inv image Γ L D G k)
    (hp : k.Private) (hb : ∀ a, k.OnRing a → NoBorder (bounds (k.phys.tasks a).mmap))
    (hr : Run pairStep UserOk (k, k.reads) es p) : p.1.DeepCopy p.2 := by
  obtain ⟨Γ', L', D', G', h', hag⟩ := hr.invariant
    (I := fun p : Kernel × Ref => ∃ Γ L D G, Cow image Γ L D G p.1 ∧
      ∀ a ∈ L, ∀ v, pml4Index v < 511 → p.1.reads a v = p.2 a v)
    ⟨Γ, L, D, G, h.cow hp hb, fun _ _ _ _ => rfl⟩
    fun q e q' ⟨Γ, L, D, G, hq, hag⟩ hok hs => by
      obtain ⟨Γ', L', G', hq', hag'⟩ := hq.step hag hok hs
      exact ⟨Γ', L', D, G', hq', hag'⟩
  exact h'.deepCopy hag

/-- The shell forks, and stores to a page that the child has, too. -/
theorem fork_deep_copy_shell : ∃ p, Run pairStep UserOk
    (shellWith 0x400000, (shellWith 0x400000).reads)
      [.fork entryRegs, .store 0x400000 7, .timer tickRegs] p ∧ p.1.DeepCopy p.2 := by
  obtain ⟨Γ, hI, hp, -, hrun, -⟩ := pageBelow_text.start
  have hborder : NoBorder (bounds (twoPages 0x400000)) := by
    unfold NoBorder
    decide
  obtain ⟨p, hr⟩ := pageBelow_text.run hborder
  refine ⟨p, hr, fork_deep_copy hI hp (fun a ha => ?_) hr⟩
  obtain rfl := List.mem_singleton.mp (hI.onRing_iff.mp ha)
  rw [show (shellWith 0x400000).phys.tasks shellTask = shellRecord (twoPages 0x400000) from hrun]
  exact hborder

end Sbunix
