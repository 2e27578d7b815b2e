import Sbunix.ExecSpace

/-!
# The address space of a child

`copyParentCr3Entries` enters the pages of the parent in the tree of the child VMA by VMA: a page
of the stack is copied, any other page is shared, read-only. A page that no page loop visits is
not entered at all (`copyParentCr3Entries_pages`).
-/

namespace Sbunix

open ByteMem Chain

variable {S : Shape} {s s' t : Phys} {Γ Γ' : Nat → Use} {parent child v f : Nat}
  {pages : List (Vma × Nat)}

/-! ### The page loop -/

/-- Some page loop visits the page of `v`; `stack` tells in which kind of VMA. -/
def Visited (pages : List (Vma × Nat)) (stack : Bool) (v : Nat) : Prop :=
  ∃ page ∈ pages, ¬ OtherPage page.2 v ∧ decide (page.1.vEnd = stackTop) = stack

/-- **What the child has at `v`** when the parent has page `f` there: `f` itself, read-only, or
a new page with the bytes of `f`. -/
inductive ChildPage (pages : List (Vma × Nat)) (s t : Phys) (Γ Γ' : Nat → Use)
    (child v f : Nat) : Prop
  | shared (hv : Visited pages false v) (hl : t.leaf v child = some (f + 5))
  | copied (hv : Visited pages true v) {g : Nat} (hnew : IsNewData Γ Γ' g)
      (hl : t.leaf v child = some (g + 7)) (hcopy : ∀ x < 4096, t.mem (g + x) = s.mem (f + x))

theorem Visited.mono {pages' : List (Vma × Nat)} {b : Bool} (h : Visited pages b v)
    (hsub : ∀ q ∈ pages, q ∈ pages') : Visited pages' b v := by
  obtain ⟨q, hq, h⟩ := h
  exact ⟨q, hsub q hq, h⟩

/-- One round more, on another page or on the same. -/
theorem ChildPage.round {Γ₁ Γ₂ : Nat → Use} {t' : Phys} {q : Vma × Nat} {e : Nat}
    (hB : Builds S (· = child) s Γ t Γ₁) (hB' : Builds S (· = child) t Γ₁ t' Γ₂)
    (hT : Typed S s Γ) (hp : S.Root parent) (hne : parent ≠ child) (hv : pml4Index v < S.top)
    (hΓ : Γ f = .data) (hfe : e = f + 7 ∨ e = f + 5) (he : s.leaf v parent = some e)
    (hother : OtherPage q.2 v → LeafKept (t.leaf v child) (t'.leaf v child))
    (hq : CopiedPage parent child (q.1.vEnd = stackTop) q.2 t t' Γ₁ Γ₂)
    (h : OtherPage q.2 v → ChildPage pages s t Γ Γ₁ child v f) :
    ChildPage (pages ++ [q]) s t' Γ Γ₂ child v f := by
  have hsub : ∀ p ∈ pages, p ∈ pages ++ [q] := fun p hp => List.mem_append_left _ hp
  have hf₁ : Γ₁ f = .data := hB.data f hΓ
  by_cases hqv : OtherPage q.2 v
  · -- another page: what the child had, it still has
    rcases h hqv with ⟨hvis, hl⟩ | ⟨hvis, hnew, hl, hcopy⟩
    · exact .shared (hvis.mono hsub) (((hother hqv).eq_some (by omega)).mpr hl)
    · rename_i g
      refine .copied (hvis.mono hsub) (hnew.ext hB'.ext)
        (((hother hqv).eq_some (by omega)).mpr hl) fun x hx => ?_
      rw [hB'.mem g (by simp [hnew.1]) (by simp [hnew.1]) (g + x) (by omega) (by omega), hcopy x hx]
  · have hmem : q ∈ pages ++ [q] := by simp
    have hsame : ∀ (u : Phys) (r : Nat), u.leaf q.2 r = u.leaf v r := fun u r =>
      (leaf_same_page hqv r).symm
    have hpar : t.leaf v parent = some e := (hB.leaf_other hT hp hne hv).trans he
    cases hst : decide (q.1.vEnd = stackTop) with
    | false =>
      have := hq.shared hst f e hf₁ hfe (by rw [hsame, hpar])
      exact .shared ⟨q, hmem, hqv, hst⟩ (by rw [← hsame, this])
    | true =>
      obtain ⟨f', g, e', hf', hfe', hl', hg, hg', hl, hcopy⟩ := hq.copied hst
      rw [hsame, hpar] at hl'
      obtain rfl := Option.some.inj hl'
      obtain rfl : f' = f := by
        have h₁ := (data_aligned hB.typed hf').1
        have h₂ := (data_aligned hB.typed hf₁).1
        rcases hfe with rfl | rfl <;> rcases hfe' with h | h <;> omega
      refine .copied ⟨q, hmem, hqv, hst⟩ ⟨hg', hB.new hg⟩ (by rw [← hsame, hl]) fun x hx => ?_
      rw [hcopy x hx]
      exact hB.mem f' (by simp [hΓ]) (by simp [hΓ]) _ (by omega) (by omega)

/-- **The pages of the child.** -/
structure ChildSpace (pages : List (Vma × Nat)) (top parent child : Nat) (s t : Phys)
    (Γ Γ' : Nat → Use) : Prop where
  leaves : Leaves top (IsData Γ') t child
  /-- A visited page of the parent is there, -/
  visited : ∀ v f e, pml4Index v < top → Γ f = .data → (e = f + 7 ∨ e = f + 5) →
    s.leaf v parent = some e → (∃ b, Visited pages b v) → ChildPage pages s t Γ Γ' child v f
  /-- … any other page is not. -/
  unvisited : ∀ v, pml4Index v < top →
    ((∀ b, ¬ Visited pages b v) ∨ ∀ e, s.leaf v parent = some e → e = 0) →
      ∀ e, t.leaf v child = some e → e = 0

/-- One round of the page loop. -/
theorem ChildSpace.round {Γ₁ Γ₂ : Nat → Use} {t' : Phys} {q : Vma × Nat}
    (hB : Builds S (· = child) s Γ t Γ₁) (hB' : Builds S (· = child) t Γ₁ t' Γ₂)
    (hT : Typed S s Γ) (hp : S.Root parent) (hne : parent ≠ child) (hv : pml4Index q.2 < S.top)
    (hlp : Leaves S.top (IsData Γ) s parent)
    (hother : ∀ w, pml4Index w < S.top → OtherPage q.2 w →
      LeafKept (t.leaf w child) (t'.leaf w child))
    (hq : CopiedPage parent child (q.1.vEnd = stackTop) q.2 t t' Γ₁ Γ₂)
    (h : ChildSpace pages S.top parent child s t Γ Γ₁) :
    ChildSpace (pages ++ [q]) S.top parent child s t' Γ Γ₂ := by
  have hlp' : Leaves S.top (IsData Γ₁) t parent :=
    (hB.leaves_other hT hp hne hlp).mono fun f hf => hB.data f hf
  refine ⟨h.leaves.set (fun f hf => hB'.data f hf) (fun e he => ?_) hother,
    fun w f e hw hΓ hfe he hvis => ?_, fun w hw hor e he => ?_⟩
  · exact hq.leaf_ok hlp' h.leaves hv (fun f hf => hB'.data f hf) hB'.data he
  · refine ChildPage.round hB hB' hT hp hne hw hΓ hfe he (hother w hw) hq fun hqw => ?_
    obtain ⟨b, p, hm, hpw, hb⟩ := hvis
    refine h.visited w f e hw hΓ hfe he ⟨b, p, ?_, hpw, hb⟩
    rcases List.mem_append.mp hm with hm | hm
    · exact hm
    · obtain rfl := List.mem_singleton.mp hm
      exact absurd hqw hpw
  · by_cases hqw : OtherPage q.2 w
    · have hold : ∀ e, t.leaf w child = some e → e = 0 := h.unvisited w hw (hor.imp_left
        fun hn b hb => hn b (hb.mono fun p hp => List.mem_append_left _ hp))
      rcases hother w hw hqw with hk | ⟨-, hk⟩
      · exact hold e (hk ▸ he)
      · exact (Option.some.inj (he.symm.trans hk))
    · -- the page is visited, so the parent has nothing there, and nothing happens
      have habs : ∀ e, s.leaf w parent = some e → e = 0 := hor.resolve_left fun hn =>
        hn _ ⟨q, by simp, hqw, rfl⟩
      have hpar : t.leaf q.2 parent = s.leaf w parent := by
        rw [← leaf_same_page hqw, hB.leaf_other hT hp hne hw]
      cases hst : decide (q.1.vEnd = stackTop) with
      | true =>
        obtain ⟨f, -, e', -, hfe', hl', -⟩ := hq.copied hst
        have := habs e' (hpar ▸ hl')
        omega
      | false =>
        have hnone : t.leaf q.2 parent = none ∨ t.leaf q.2 parent = some 0 := by
          rw [hpar]
          cases hl : s.leaf w parent with
          | none => exact Or.inl rfl
          | some e => exact Or.inr (congrArg some (habs e hl))
        rw [hq.absent hst hnone] at he
        exact h.unvisited w hw (Or.inr habs) e he

/-- **`copyParentCr3Entries`** builds on the child's tree only, and enters the pages its loops
visit. -/
theorem copyParentCr3Entries_pages {mmap : List Vma} (h : Typed S s Γ)
    (htop : S.top = 511) (hS : S.Accepts child user) (hc : S.Root child) (hp : S.Root parent)
    (hne : parent ≠ child) (hpages : UserPages mmap) (hlp : Leaves S.top (IsData Γ) s parent)
    (hempty : ∀ v, pml4Index v < S.top → s.leaf v child = none)
    (hf : s.copyParentCr3Entries mmap parent parent child = some s') (hx : s'.exhausted = false) :
    ∃ Γ' pages, vmaPages mmap = some pages ∧ Builds S (· = child) s Γ s' Γ' ∧
      ChildSpace pages S.top parent child s s' Γ Γ' := by
  obtain ⟨pages, hvp, hf⟩ := Option.bind_eq_some_iff.mp hf
  have h0 : ChildSpace [] S.top parent child s s Γ Γ := by
    refine ⟨fun v e hv he => ?_, fun v f e hv _ _ _ hvis => ?_, fun v hv _ e he => ?_⟩
    · rw [hempty v hv] at he
      cases he
    · obtain ⟨b, p, hm, -⟩ := hvis
      cases hm
    · rw [hempty v hv] at he
      cases he
  suffices ∃ Γ', Builds S (· = child) s Γ s' Γ' ∧
      ChildSpace ([] ++ pages) S.top parent child s s' Γ Γ' by
    obtain ⟨Γ', hB, hC⟩ := this
    exact ⟨Γ', pages, hvp, hB, hC⟩
  refine Runs.foldlM_invariant_prefix (I := fun d t => t.exhausted = false →
    ∃ Γt, Builds S (· = child) s Γ t Γt ∧ ChildSpace d S.top parent child s t Γ Γt) hf
    (fun _ => ⟨Γ, .refl h, h0⟩) (fun d q rest t t' hd ih ht hx' => ?_) hx
  obtain ⟨Γt, hB, hC⟩ := ih (copyParentPage_alive ht hx')
  have hm : q ∈ pages := by
    rw [List.nil_append] at hd
    simp [hd]
  have hv : pml4Index q.2 < S.top := htop ▸ hpages.page hvp hm
  have hlp' : Leaves S.top (IsData Γt) t parent :=
    (hB.leaves_other h hp hne hlp).mono fun f hf => hB.data f hf
  obtain ⟨Γ', hB', hother, hq⟩ := copyParentPage_spec hB.typed hS hc hp hne hv hlp' ht hx'
  exact ⟨Γ', hB.trans hB', hC.round hB hB' h hp hne hv hlp hother hq⟩

end Sbunix
