import Sbunix.Release

/-!
# Resolving page faults

What the two branches of `_hndlr_isr14` that come back do to memory: a page on demand is a new
page of zeros, and a store to a present page either makes the entry writable, when nobody else
has the page at that address, or enters a copy.
-/

namespace Sbunix

open ByteMem

variable {S : Shape} {s s' t : Phys} {Γ Γ' : Nat → Use} {r f g v : Nat}

/-- The page of `v` under `r` is now the new page `g`. -/
structure NewPage (S : Shape) (r v g : Nat) (s s' : Phys) (Γ Γ' : Nat → Use) : Prop where
  builds : Builds S (· = r) s Γ s' Γ'
  new : IsNewData Γ Γ' g
  leaf : s'.leaf v r = some (g + 7)
  other : ∀ w, pml4Index w < S.top → OtherPage v w → LeafKept (s.leaf w r) (s'.leaf w r)

/-- A page is taken, mapped and filled. -/
theorem newPage_of_map (h : Typed S s Γ) (hr : S.Root r) (hS : S.Accepts r user)
    (hv : pml4Index v < S.top) (ht : Taken s t g)
    (hx : (t.mapPageForUser (v &&& frame) g r).exhausted = false)
    (he : Edits (t.mapPageForUser (v &&& frame) g r) s' g) :
    ∃ Γ', NewPage S r v g s s' Γ Γ' := by
  have hvf : pml4Index (v &&& frame) < S.top := by rwa [pml4Index_frame]
  have hB := (Builds.refl (W := (· = r)) h).taken ht (u := .data) (by simp) (by simp)
  have hg : Function.update Γ g .data g = .data := Function.update_self ..
  obtain ⟨Γ', htc, hself, hother⟩ := mapPageForUser_spec hB.typed hr hS hvf hg hx
  have hB' := hB.touches htc rfl
  have hg' : Γ' g = .data := htc.data g hg
  have hleaf : ∀ w, pml4Index w < S.top → s'.leaf w r =
      (t.mapPageForUser (v &&& frame) g r).leaf w r := fun w hw =>
    he.leaf hB'.typed ht.aligned (by simp [hg']) hr hw
  refine ⟨Γ', hB'.edits he (ht.unowned h) (by simp [hg']) (by simp [hg']), ⟨hg', ht.unowned h⟩, ?_,
    fun w hw hvw => ?_⟩
  · rw [hleaf v hv, ← leaf_frame_page]
    exact hself
  · rw [hleaf w hw, ← ht.leaf h hr hw]
    exact hother w hw ((otherPage_frame _ _).mpr hvw)

/-- Good entries stay good. -/
theorem NewPage.leaves (h : NewPage S r v g s s' Γ Γ') (hl : Leaves S.top (IsData Γ) s r) :
    Leaves S.top (IsData Γ') s' r :=
  hl.set (fun f hf => h.builds.data f hf)
    (fun _ he => Or.inr ⟨g, h.new.1, Or.inl (Option.some.inj (he.symm.trans h.leaf))⟩) h.other

/-- **The page on demand.** -/
theorem demandZero_spec (h : Typed S s Γ) (hr : S.Root r) (hS : S.Accepts r user)
    (hv : pml4Index v < S.top)
    (hx : ((s.pageAllocator.2.mapPageForUser (v &&& frame) s.pageAllocator.1 r).memset
      s.pageAllocator.1).exhausted = false) :
    ∃ Γ' g, NewPage S r v g s ((s.pageAllocator.2.mapPageForUser (v &&& frame) s.pageAllocator.1
        r).memset s.pageAllocator.1) Γ Γ' ∧
      ∀ x < 4096, ((s.pageAllocator.2.mapPageForUser (v &&& frame) s.pageAllocator.1 r).memset
        s.pageAllocator.1).mem (g + x) = 0 := by
  rw [Phys.memset_exhausted] at hx
  obtain ⟨Γ', h'⟩ := newPage_of_map h hr hS hv (pageAllocator_taken (mapPageForUser_alive hx)) hx
    (memset_edits _ _)
  refine ⟨Γ', _, h', fun x hx => ?_⟩
  rw [Phys.memset_mem, if_pos ⟨by omega, by omega⟩]

/-- **The copy of a shared page.** -/
theorem copyPage_spec (h : Typed S s Γ) (hr : S.Root r) (hS : S.Accepts r user)
    (hv : pml4Index v < S.top) (hf : Γ f = .data)
    (hx : (s.kmalloc.2.mapPageForUser (v &&& frame) s.kmalloc.1 r).exhausted = false) :
    ∃ Γ', NewPage S r v s.kmalloc.1 s ((s.kmalloc.2.mapPageForUser (v &&& frame) s.kmalloc.1
        r).memcpy f s.kmalloc.1 4096) Γ Γ' ∧
      (s.kmalloc.2.mapPageForUser (v &&& frame) s.kmalloc.1 r).translate (v &&& frame) r =
        some s.kmalloc.1 ∧
      ∀ x < 4096, ((s.kmalloc.2.mapPageForUser (v &&& frame) s.kmalloc.1 r).memcpy f
        s.kmalloc.1 4096).mem (s.kmalloc.1 + x) = s.mem (f + x) := by
  obtain ⟨g, t, hk⟩ : ∃ g t, s.kmalloc = (g, t) := ⟨_, _, rfl⟩
  have ht := (kmalloc_taken (mapPageForUser_alive hx)).1
  simp only [hk] at hx ht ⊢
  have hvf : pml4Index (v &&& frame) < S.top := by rwa [pml4Index_frame]
  obtain ⟨Γ', h'⟩ := newPage_of_map h hr hS hv ht hx
    (memcpy_edits (n := 4096) (q := f) _ (le_refl g) (by omega))
  have hfal := (data_aligned h hf).1
  have hgal := ht.aligned
  have hB := (Builds.refl (W := (· = r)) h).taken ht (u := .data) (by simp) (by simp)
  obtain ⟨Γ'', htc, hself, -⟩ := mapPageForUser_spec hB.typed hr hS hvf (Function.update_self ..) hx
  refine ⟨Γ', h', ?_, fun x hx' => ?_⟩
  · rw [translate_of_leaf hgal hself (Or.inl rfl), and_frame_mod]
    congr 1
    omega
  -- the source is another page, and it has not changed
  have hfg : f ≠ g := by
    rintro rfl
    rw [ht.unowned h] at hf
    cases hf
  rw [Phys.memcpy_mem, copy_apply _ (by omega), if_pos (by omega), Nat.add_sub_cancel_left]
  exact (hB.touches htc rfl).mem f (by simp [hf]) (by simp [hf]) _ (by omega) (by omega)

/-- The sharing test of `_hndlr_isr14`. -/
theorem pageSharers_eq {k : Kernel} {others : List Nat}
    (hseg : Chain.Seg k.phys.next (k.phys.next k.runningThread) others k.runningThread)
    (hnot : k.runningThread ∉ others) (hlen : others.length < walkFuel) :
    k.pageSharers v f = some (others.countP fun a =>
      decide (k.phys.MapsTo v (k.phys.tasks a).regs.cr3 f)) := by
  have hc := Chain.collect_of_seg (q := (· == k.runningThread)) hseg
    (fun y hy => beq_false_of_ne fun h => hnot (h ▸ hy)) (beq_self_eq_true _) hlen
  simp only [Kernel.pageSharers, hc, Option.bind_eq_bind, Option.bind_some, Option.pure_def]
  refine congrArg some (List.countP_congr fun a _ => ?_)
  rw [decide_eq_true_iff, decide_eq_true_iff, ← Phys.mapsTo_frame]
  rfl

end Sbunix
