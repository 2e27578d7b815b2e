import Sbunix.ExecSpace

/-!
# The kernel half and the ELF loader

Entry 511 of every PML4 points to the same tables. `loadFile` maps the pages of a segment at the
addresses that the file asks for; it does not ask whether they lie in the user half.

`Loading` is what holds while a file is loaded: the pages `M` have been mapped, and as long as none
of them is in the kernel half, neither are the bytes that have changed.

* `mapWith_outside` — the bytes that mapping a page leaves alone;
* `kernelHalfKept_iff` — loading a file leaves the kernel half alone, exactly if the file puts no
  page there; `kernelHalf_changed` is a file that does.
-/

namespace Sbunix

open ByteMem Placement

variable {S : Shape} {W : Nat → Prop} {s₀ s s' : Phys} {Γ₀ Γ Γ' : Nat → Use} {r f v x : Nat}

/-! ### The bytes that a mapping writes -/

/-- One level of the walk writes to a page it takes, and to one slot. -/
theorem nextTable_outside {table i flag : Nat} (hx : (s.nextTable table i flag).2.exhausted = false)
    (hfree : IsFree s.availFrames (x / 4096) →
      IsFree (s.nextTable table i flag).2.availFrames (x / 4096))
    (hslot : x < table + 8 * i ∨ table + 8 * i + 8 ≤ x) :
    (s.nextTable table i flag).2.mem x = s.mem x := by
  simp only [Phys.nextTable] at hx hfree ⊢
  split at hx
  · next hp => rw [if_pos hp]
  · next hp =>
    simp only [if_neg hp] at hfree ⊢
    rw [Phys.store64_exhausted, Phys.memset_exhausted] at hx
    obtain ⟨-, hal, -, hf, hbits⟩ := Phys.pageAllocator_spec hx
    rw [Phys.store64_availFrames, Phys.memset_availFrames] at hfree
    -- the page of `x` is not the one that is taken
    have hne : x / 4096 ≠ s.pageAllocator.1 / 4096 := by
      intro heq
      rw [heq] at hfree
      exact ((hbits _).mp (hfree hf)).1 rfl
    have hwrite : ∀ t : Phys, (t.store64 (table + 8 * i)
        (s.pageAllocator.1 ||| present ||| writeable ||| flag)).mem x = t.mem x :=
      fun t => write64_of_out (by omega)
    rw [hwrite, Phys.memset_mem, if_neg (by omega), Phys.pageAllocator_mem]

/-- **The bytes that mapping `v` leaves alone**: those that lie neither in a page that is taken nor
in the slot of `v` in the root nor in a table that this slot leads to. -/
theorem mapWith_outside (h : Typed S s Γ) (hr : S.Root r) {p flag : Nat}
    (hv : pml4Index v < S.top) (hx : (s.mapWith flag v p r).exhausted = false)
    (hS : S.Accepts r flag)
    (hfree : IsFree s.availFrames (x / 4096) →
      IsFree (s.mapWith flag v p r).availFrames (x / 4096))
    (hroot : x < r + 8 * pml4Index v ∨ r + 8 * pml4Index v + 8 ≤ x)
    (htable : ∀ q, Γ (x / 4096 * 4096) ≠ .table r (pml4Index v :: q)) :
    (s.mapWith flag v p r).mem x = s.mem x := by
  have hd := Shape.dom_path hr hv
  simp only [Phys.mapWith, Phys.store64_exhausted, Phys.store64_availFrames] at hx hfree ⊢
  -- the three levels, as in `mapWith_spec`
  set pdpt := s.nextTable r (pml4Index v) flag with hpdpt
  set pdt := pdpt.2.nextTable pdpt.1 (pdptIndex v) flag with hpdt
  set pt := pdt.2.nextTable pdt.1 (pdtIndex v) flag with hpt
  have hx₂ := nextTable_live hx
  have hx₁ := nextTable_live hx₂
  have hd₂ : S.Dom r ([pml4Index v] ++ [pdptIndex v]) := S.prefixClosed _ _ (pdtIndex v) hd
  have hd₁ : S.Dom r ([] ++ [pml4Index v]) := S.prefixClosed _ _ (pdptIndex v) hd₂
  obtain ⟨Γ₁, hg₁, hw₁⟩ := nextTable_spec h hd₁ rfl hx₁ hS
  obtain ⟨Γ₂, hg₂, hw₂⟩ := nextTable_spec hg₁.typed hd₂ hw₁ hx₂ hS
  obtain ⟨Γ₃, hg₃, hw₃⟩ := nextTable_spec hg₂.typed (p := [pml4Index v, pdptIndex v]) hd hw₂ hx hS
  have hg : Grows S r s pt.2 Γ Γ₃ := (hg₁.trans hg₂).trans hg₃
  -- the page of `x` is no table on the way, neither an old nor a new one
  have haway : ∀ t q, Γ₃ t = .table r (pml4Index v :: q) → ¬(t ≤ x ∧ x < t + 4096) := by
    rintro t q ht ⟨hlo, hhi⟩
    obtain ⟨hal, -, hused⟩ := hg.typed.owned t (by simp [ht])
    have hpage : x / 4096 * 4096 = t := by omega
    by_cases hu : Γ t = .unowned
    · have hfresh := (hg.fresh t hu (by simp [ht])).1
      have hdiv : x / 4096 = t / 4096 := by omega
      rw [hdiv] at hfree
      exact hused (hfree hfresh)
    · rw [hg.ext t hu] at ht
      exact htable q (by rw [hpage, ht])
  have hΓ₁ : Γ₁ pdpt.1 = .table r [pml4Index v] := hg₁.typed.walk hd₁ hw₁
  have hΓ₂ : Γ₂ pdt.1 = .table r [pml4Index v, pdptIndex v] := hg₂.typed.walk hd₂ hw₂
  have ht₁ : Γ₃ pdpt.1 = .table r [pml4Index v] := by
    rw [(hg₂.trans hg₃).ext _ (by rw [hΓ₁]; simp), hΓ₁]
  have ht₂ : Γ₃ pdt.1 = .table r [pml4Index v, pdptIndex v] := by
    rw [hg₃.ext _ (by rw [hΓ₂]; simp), hΓ₂]
  have ht₃ : Γ₃ pt.1 = .table r [pml4Index v, pdptIndex v, pdtIndex v] :=
    hg₃.typed.walk (p := [pml4Index v, pdptIndex v, pdtIndex v]) hd hw₃
  have h₁ := haway _ _ ht₁
  have h₂ := haway _ _ ht₂
  have h₃ := haway _ _ ht₃
  have hi₂ := pdptIndex_lt v
  have hi₃ := pdtIndex_lt v
  have hi₄ := ptIndex_lt v
  -- what is free at the end is free in between
  obtain ⟨hn₁₂, hn₃⟩ := (hg₁.trans hg₂).toTouches.not_taken hg₃.toTouches hfree
  obtain ⟨hn₁, hn₂⟩ := hg₁.toTouches.not_taken hg₂.toTouches hn₁₂
  calc (pt.2.store64 (pt.1 + 8 * ptIndex v) (p ||| present ||| writeable ||| flag)).mem x
      = pt.2.mem x := write64_of_out (by omega)
    _ = pdt.2.mem x := nextTable_outside hx hn₃ (by omega)
    _ = pdpt.2.mem x := nextTable_outside hx₂ hn₂ (by omega)
    _ = s.mem x := nextTable_outside hx₁ hn₁ hroot

/-! ### While a file is loaded -/

/-- A byte of the kernel half: in entry 511 of the root, or in a table that it leads to. -/
def KernelByte (Γ₀ : Nat → Use) (r x : Nat) : Prop :=
  (r + 8 * 511 ≤ x ∧ x < r + 4096) ∨ ∃ q, Γ₀ (x / 4096 * 4096) = .table r (511 :: q)

/-- `v` is mapped, and the user may use it. -/
def UserLeaf (s : Phys) (r v : Nat) : Prop := ∃ e, s.leaf v r = some e ∧ e / 4 % 2 = 1

/-- **The pages `M` have been mapped** since memory was `s₀`. -/
structure Loading (s₀ : Phys) (Γ₀ : Nat → Use) (r : Nat) (M : Nat → Prop) (s : Phys)
    (Γ : Nat → Use) : Prop where
  builds : Builds (Shape.single r) (· = r) s₀ Γ₀ s Γ
  user : ∀ v, M v → UserLeaf s r v
  /-- The kernel half has changed only if one of the pages lies in it. -/
  kernel : (∀ v, M v → pml4Index v ≠ 511) → ∀ x, KernelByte Γ₀ r x → s.mem x = s₀.mem x

variable {M M' : Nat → Prop}

theorem single_accepts (r : Nat) : (Shape.single r).Accepts r user :=
  ⟨by decide, trivial, fun _ _ _ => trivial⟩

/-- The page of such a byte is in use as a table. -/
theorem KernelByte.table (hx : KernelByte Γ₀ r x) (h : Typed (Shape.single r) s₀ Γ₀) :
    ∃ q, Γ₀ (x / 4096 * 4096) = .table r q ∧ (q = [] → r + 8 * 511 ≤ x) ∧
      ∀ i q', q = i :: q' → i = 511 := by
  rcases hx with ⟨hlo, hhi⟩ | ⟨q, hq⟩
  · have hroot := h.root (r := r) rfl
    have hal := (h.owned r (by rw [hroot]; simp)).1
    have hpage : x / 4096 * 4096 = r := by omega
    exact ⟨[], by rw [hpage, hroot], fun _ => hlo, nofun⟩
  · refine ⟨511 :: q, hq, nofun, ?_⟩
    rintro i q' heq
    exact (List.cons.inj heq).1.symm

theorem Loading.mono (h : Loading s₀ Γ₀ r M s Γ) (hM : ∀ v, M' v ↔ M v) :
    Loading s₀ Γ₀ r M' s Γ :=
  ⟨h.builds, fun v hv => h.user v ((hM v).mp hv), fun hM' => h.kernel fun v hv => hM' v ((hM v).mpr hv)⟩

variable (h₀ : Typed (Shape.single r) s₀ Γ₀)

include h₀

/-- Taking a page. -/
theorem Loading.taken (h : Loading s₀ Γ₀ r M s Γ) (ht : Taken s s' f) {u : Use}
    (hu : ∀ r p, u ≠ .table r p) (hu' : u ≠ .unowned) :
    Loading s₀ Γ₀ r M s' (Function.update Γ f u) := by
  refine ⟨h.builds.taken ht hu hu', ?_, ?_⟩
  · rintro v hv
    rw [UserLeaf, ht.leaf h.builds.typed rfl (pml4Index_lt v)]
    exact h.user v hv
  · intro hM x hx
    rw [← h.kernel hM x hx]
    obtain ⟨q, hq, -, -⟩ := hx.table h₀
    have hal := ht.aligned
    -- a table of the kernel half is not the page that is taken
    apply ht.mem
    rintro ⟨hlo, hhi⟩
    have hpage : x / 4096 * 4096 = f := by omega
    rw [hpage] at hq
    exact (h.builds.used (f := f) (by rw [hq]; simp)).1 (ht.unowned h.builds.typed)

/-- Filling a page that has been taken. -/
theorem Loading.edit (h : Loading s₀ Γ₀ r M s Γ) (hf : IsNewData Γ₀ Γ f) (he : Edits s s' f) :
    Loading s₀ Γ₀ r M s' Γ := by
  have hne : Γ f ≠ .unowned := by rw [hf.1]; simp
  have hΓ : ∀ r p, Γ f ≠ .table r p := by rw [hf.1]; simp
  have hal := (h.builds.typed.owned f hne).1
  refine ⟨h.builds.edits he hf.2 hne hΓ, ?_, ?_⟩
  · intro v hv
    rw [UserLeaf, he.leaf h.builds.typed hal hΓ rfl (pml4Index_lt v)]
    exact h.user v hv
  · intro hM x hx
    rw [← h.kernel hM x hx]
    obtain ⟨q, hq, -, -⟩ := hx.table h₀
    apply he.mem
    rintro ⟨hlo, hhi⟩
    have hpage : x / 4096 * 4096 = f := by omega
    rw [hpage, hf.2] at hq
    cases hq

/-- **Mapping a page.** -/
theorem Loading.map (h : Loading s₀ Γ₀ r M s Γ) (hf : IsNewData Γ₀ Γ f)
    (hx : (s.mapPageForUser v f r).exhausted = false) :
    ∃ Γ', Loading s₀ Γ₀ r (fun w => M w ∨ w = v) (s.mapPageForUser v f r) Γ' ∧
      ∀ g, Γ g ≠ .unowned → Γ' g = Γ g := by
  obtain ⟨Γ', ht, hself, hother⟩ := mapPageForUser_spec h.builds.typed rfl (single_accepts r)
    (pml4Index_lt v) hf.1 hx
  obtain ⟨hal, -, -⟩ := data_aligned h.builds.typed hf.1
  have hB := h.builds.touches ht rfl
  refine ⟨Γ', ⟨hB, ?_, ?_⟩, ht.ext⟩
  · rintro w hw
    by_cases hpage : OtherPage v w
    · -- another page keeps its entry
      obtain ⟨e, he, huser⟩ := h.user w (by
        rcases hw with hw | rfl
        · exact hw
        · exact absurd rfl hpage)
      refine ⟨e, ((hother w (pml4Index_lt w) hpage).eq_some ?_).mpr he, huser⟩
      rintro rfl
      exact absurd huser (by decide)
    · refine ⟨f + 7, ?_, by omega⟩
      rw [leaf_same_page hpage, hself]
  · intro hM x hkx
    -- no page mapped so far was in the kernel half, and `v` is not either
    have hv := hM v (.inr rfl)
    rw [← h.kernel (fun w hw => hM w (.inl hw)) x hkx]
    -- the byte lies in a table of the kernel half, and the map writes to other tables only
    obtain ⟨q, hq, hroot, hhead⟩ := hkx.table h₀
    have hΓ : Γ (x / 4096 * 4096) = .table r q := by rw [h.builds.ext _ (by rw [hq]; simp), hq]
    have hused := (hB.used (f := x / 4096 * 4096) (by rw [hq]; simp)).2
    rw [Nat.mul_div_cancel _ (by decide)] at hused
    have hi := pml4Index_lt v
    have hr := (h.builds.typed.owned r (by
      rw [h.builds.typed.root (r := r) rfl]
      simp)).1
    refine mapWith_outside h.builds.typed rfl (pml4Index_lt v) hx (single_accepts r)
      (fun hfree => ?_) ?_ ?_
    · have hfree₀ := (h.builds.used (f := x / 4096 * 4096) (by rw [hq]; simp)).2
      rw [Nat.mul_div_cancel _ (by decide)] at hfree₀
      exact absurd hfree hfree₀
    · -- slot 511 of the root is another slot, and the other tables are other pages
      cases q with
      | nil =>
        have := hroot rfl
        omega
      | cons i q =>
        have hpage : x / 4096 * 4096 ≠ r := by
          intro heq
          rw [heq, h.builds.typed.root (r := r) rfl] at hΓ
          simp at hΓ
        omega
    · intro q' hq'
      rw [hΓ] at hq'
      simp only [Use.table.injEq, true_and] at hq'
      exact hv (hhead _ _ hq')

omit h₀

/-! ### The steps of the loader -/

/-- **What the loader does**: it takes pages, maps some of them and writes to these. `I M` is to
hold when the pages `M` have been mapped, and each step keeps it. -/
structure LoadSteps (s₀ : Phys) (Γ₀ : Nat → Use) (r : Nat)
    (I : (Nat → Prop) → Phys → (Nat → Use) → Prop) : Prop where
  builds : ∀ {M s Γ}, I M s Γ → Builds (Shape.single r) (· = r) s₀ Γ₀ s Γ
  mono : ∀ {M M' s Γ}, I M s Γ → (∀ v, M' v ↔ M v) → I M' s Γ
  taken : ∀ {M s s' Γ f u}, I M s Γ → Taken s s' f → (∀ r p, u ≠ Use.table r p) →
    u ≠ .unowned → I M s' (Function.update Γ f u)
  edit : ∀ {M s s' Γ f}, I M s Γ → IsNewData Γ₀ Γ f → Edits s s' f → I M s' Γ
  map : ∀ {M s Γ f v}, I M s Γ → IsNewData Γ₀ Γ f →
    (s.mapPageForUser v f r).exhausted = false →
    ∃ Γ', I (fun w => M w ∨ w = v) (s.mapPageForUser v f r) Γ' ∧ ∀ g, Γ g ≠ .unowned → Γ' g = Γ g

variable {I : (Nat → Prop) → Phys → (Nat → Use) → Prop}

/-- `Loading` is kept by the loader. -/
theorem loading_steps (h₀ : Typed (Shape.single r) s₀ Γ₀) :
    LoadSteps s₀ Γ₀ r fun M s Γ => Loading s₀ Γ₀ r M s Γ where
  builds h := h.builds
  mono h hM := h.mono hM
  taken h ht hu hu' := h.taken h₀ ht hu hu'
  edit h hf he := h.edit h₀ hf he
  map h hf hx := h.map h₀ hf hx

/-- **`kmalloc` and `mapPageForUser`.** -/
theorem LoadSteps.kmallocMap (H : LoadSteps s₀ Γ₀ r I) (h : I M s Γ)
    (hx : (s.kmalloc.2.mapPageForUser v s.kmalloc.1 r).exhausted = false) :
    ∃ Γ', I (fun w => M w ∨ w = v) (s.kmalloc.2.mapPageForUser v s.kmalloc.1 r) Γ' ∧
      IsNewData Γ₀ Γ' s.kmalloc.1 := by
  obtain ⟨ht, -, -⟩ := kmalloc_taken (mapPageForUser_alive hx)
  have hB := H.builds h
  have hL := H.taken h ht (u := .data) (by simp) (by simp)
  have hf : IsNewData Γ₀ (Function.update Γ s.kmalloc.1 .data) s.kmalloc.1 :=
    ⟨Function.update_self .., hB.new (ht.unowned hB.typed)⟩
  obtain ⟨Γ', hL', hext⟩ := H.map hL hf hx
  exact ⟨Γ', hL', hf.ext hext⟩

/-- **The copy loop** maps a page for every `0x1000` bytes behind the first. -/
theorem LoadSteps.copySegment {elf n temp temp2 temp3 : Nat} (H : LoadSteps s₀ Γ₀ r I)
    (h : I M s Γ)
    (hf : IsNewData Γ₀ Γ f) (hn : temp < n)
    (hx : (Sbunix.copySegment elf r n s temp temp2 temp3 f).1.exhausted = false) :
    ∃ Γ' g c, I
        (fun w => M w ∨ ∃ j, 0 < j ∧ 0x1000 * j < temp ∧ w = (temp2 + 0x1000 * j) % 2 ^ 64)
        (Sbunix.copySegment elf r n s temp temp2 temp3 f).1 Γ' ∧
      IsNewData Γ₀ Γ' g ∧ (Sbunix.copySegment elf r n s temp temp2 temp3 f).2 = g + c ∧
      c ≤ temp ∧ c ≤ 4096 := by
  -- induction on the rounds: a round maps the page that the next one copies to
  induction n generalizing s Γ M f temp temp2 temp3 with
  | zero => omega
  | succ n ih =>
    by_cases hbig : 0x1000 < temp
    · -- a page is copied, and the next one is mapped
      have hpos : temp > 0 := by omega
      simp only [Sbunix.copySegment, if_pos hpos, if_pos hbig] at hx ⊢
      have hL := H.edit h hf (memcpy_edits s (q := elf + 64 * temp3) (n := 0x1000) (Nat.le_refl f)
        (Nat.le_refl _))
      obtain ⟨Γ', hL', hf'⟩ := H.kmallocMap hL (copySegment_alive hx)
      obtain ⟨Γ'', g, c, hL'', hg, hend, hc, hc'⟩ := ih hL' hf' (by omega) hx
      refine ⟨Γ'', g, c, H.mono hL'' ?_, hg, hend, by omega, hc'⟩
      intro w
      constructor
      · rintro (hM | ⟨j, hj, hlt, hw⟩)
        · exact .inl (.inl hM)
        · obtain ⟨j, rfl⟩ : ∃ k, j = k + 1 := ⟨j - 1, by omega⟩
          by_cases hj0 : j = 0
          · subst hj0
            exact .inl (.inr (by omega))
          · exact .inr ⟨j, by omega, by omega, by omega⟩
      · rintro ((hM | hw) | ⟨j, hj, hlt, hw⟩)
        · exact .inl hM
        · exact .inr ⟨1, by omega, by omega, by omega⟩
        · exact .inr ⟨j + 1, by omega, by omega, by omega⟩
    · -- the last chunk
      have hnone : ∀ w, (M w ∨ ∃ j, 0 < j ∧ 0x1000 * j < temp ∧
          w = (temp2 + 0x1000 * j) % 2 ^ 64) ↔ M w := by
        intro w
        constructor
        · rintro (hM | ⟨j, hj, hlt, -⟩)
          · exact hM
          · omega
        · exact .inl
      by_cases hpos : temp > 0
      · have hrest : ∀ (t : Phys) (a b k : Nat), Sbunix.copySegment elf r n t 0 a b k = (t, k) := by
          intro t a b k
          cases n with
          | zero => rfl
          | succ n => simp [Sbunix.copySegment]
        simp only [Sbunix.copySegment, if_pos hpos, if_neg hbig, hrest] at hx ⊢
        exact ⟨Γ, f, temp, H.mono (H.edit h hf (memcpy_edits s (Nat.le_refl f) (by omega))) hnone, hf,
          rfl, Nat.le_refl _, by omega⟩
      · simp only [Sbunix.copySegment, if_neg hpos] at hx ⊢
        exact ⟨Γ, f, 0, H.mono h hnone, hf, rfl, Nat.zero_le _, Nat.zero_le _⟩

/-! ### Segments -/

/-- The pages that `map_elf_file` maps: the one of `p_vaddr`, and one for every further `0x1000`
bytes of the file part. -/
def Elf64Phdr.Page (hdr : Elf64Phdr) (v : Nat) : Prop :=
  ∃ j, (j = 0 ∨ 0x1000 * j < hdr.pFilesz) ∧ v = (hdr.pVaddr + 0x1000 * j) % 2 ^ 64

/-- Clearing the tail stays in the last page. -/
def Elf64Phdr.TailFits (hdr : Elf64Phdr) : Prop :=
  hdr.pMemsz = hdr.pFilesz ∨ hdr.pFilesz + hdr.pMemsz ≤ 0x1000

/-- The segments that `loadFile` loads: it stops at one that is smaller in memory than in the file,
and after 101. -/
def loadedSegments (m : Mem) (elf : Nat) : List Nat → Nat → List Elf64Phdr
  | [], _ => []
  | i :: is, counter =>
    if counter > 100 then []
    else
      let hdr := elfProgramHdr m elf i
      if hdr.pType = elfPtLoad then
        if hdr.pMemsz < hdr.pFilesz then [] else hdr :: loadedSegments m elf is (counter + 1)
      else loadedSegments m elf is counter

/-- … of the file at `elf`. -/
def fileSegments (m : Mem) (elf size : Nat) : List Elf64Phdr :=
  if validateElfFile m elf = false ∨ size < (ePhoff m elf + ePhnum m elf * 56) % 2 ^ 64 then []
  else loadedSegments m elf (List.range (ePhnum m elf)) 0

theorem readWord_lt (m : Mem) (a n : Nat) : readWord m a n < 2 ^ 64 :=
  Nat.lt_of_le_of_lt (Nat.mod_le _ _) (read64_lt m a)

/-- **A segment.** -/
theorem LoadSteps.mapElfFile {l : Loader} {elf : Nat} {hdr : Elf64Phdr}
    (H : LoadSteps s₀ Γ₀ r I) (h : I M l.phys Γ)
    (hv : hdr.pVaddr < 2 ^ 64) (hsizes : hdr.pFilesz ≤ hdr.pMemsz) (htail : hdr.TailFits)
    (hx : (Sbunix.mapElfFile l elf hdr r).2.phys.exhausted = false) :
    (Sbunix.mapElfFile l elf hdr r).1 = 1 ∧
      ∃ Γ', I (fun v => M v ∨ hdr.Page v) (Sbunix.mapElfFile l elf hdr r).2.phys Γ' := by
  simp only [Sbunix.mapElfFile, if_neg (Nat.not_lt.mpr hsizes)] at hx ⊢
  refine ⟨trivial, ?_⟩
  have hx₂ := copySegment_alive hx
  obtain ⟨ht, -, -⟩ := kmalloc_taken (kmalloc_alive (mapPageForUser_alive hx₂))
  -- the record, the first page and the copy loop
  have h₁ := H.taken h ht (u := .kernel) (by simp) (by simp)
  obtain ⟨Γ₂, h₂, hf⟩ := H.kmallocMap h₁ hx₂
  obtain ⟨Γ₃, g, c, h₃, hg, hend, hc, hc'⟩ := H.copySegment h₂ hf (Nat.lt_succ_self _) hx
  have h₄ : I (fun v => M v ∨ hdr.Page v) _ Γ₃ := H.mono h₃ (by
    intro v
    constructor
    · rintro (hM | ⟨j, hj, rfl⟩)
      · exact .inl (.inl hM)
      · by_cases hj0 : j = 0
        · subst hj0
          exact .inl (.inr (by omega))
        · exact .inr ⟨j, by omega, by omega, rfl⟩
    · rintro ((hM | rfl) | ⟨j, -, hlt, rfl⟩)
      · exact .inl hM
      · exact .inr ⟨0, .inl rfl, by omega⟩
      · exact .inr ⟨j, .inr hlt, rfl⟩)
  -- the tail lies in the last page
  refine ⟨Γ₃, H.edit h₄ hg ⟨rfl, rfl, ?_, fun _ _ => rfl⟩⟩
  intro x hxg
  have htail' : hdr.pMemsz = hdr.pFilesz ∨ hdr.pFilesz + hdr.pMemsz ≤ 0x1000 := htail
  simp only [hend, fill_apply]
  rw [if_neg (by omega)]

/-- **The loop over the program headers**, which lie in memory that is in use. -/
theorem LoadSteps.loadSegments {l : Loader} {elf counter : Nat} {is : List Nat}
    (H : LoadSteps s₀ Γ₀ r I) (h : I M l.phys Γ)
    (hsame : ∀ s Γ, Builds (Shape.single r) (· = r) s₀ Γ₀ s Γ →
      ∀ i ∈ is, elfProgramHdr s.mem elf i = elfProgramHdr s₀.mem elf i)
    (htail : ∀ hdr ∈ loadedSegments s₀.mem elf is counter, hdr.TailFits)
    (hx : (Sbunix.loadSegments elf r is counter l).2.phys.exhausted = false) :
    ∃ Γ', I
      (fun v => M v ∨ ∃ hdr ∈ loadedSegments s₀.mem elf is counter, hdr.Page v)
      (Sbunix.loadSegments elf r is counter l).2.phys Γ' := by
  -- induction on the headers; each segment is loaded into what the last one has left
  induction is generalizing counter l M Γ with
  | nil => exact ⟨Γ, H.mono h (by simp [loadedSegments])⟩
  | cons i is ih =>
    have hhdr := hsame l.phys Γ (H.builds h) i List.mem_cons_self
    have hrest : ∀ s Γ, Builds (Shape.single r) (· = r) s₀ Γ₀ s Γ →
        ∀ i ∈ is, elfProgramHdr s.mem elf i = elfProgramHdr s₀.mem elf i :=
      fun s Γ hB j hj => hsame s Γ hB j (List.mem_cons_of_mem i hj)
    simp only [Sbunix.loadSegments, hhdr, loadedSegments] at hx htail ⊢
    by_cases hmany : counter > 100
    · simp only [if_pos hmany] at hx ⊢
      exact ⟨Γ, H.mono h (by simp)⟩
    simp only [if_neg hmany] at hx htail ⊢
    by_cases hload : (elfProgramHdr s₀.mem elf i).pType = elfPtLoad
    · simp only [if_pos hload] at hx htail ⊢
      by_cases hsizes : (elfProgramHdr s₀.mem elf i).pMemsz < (elfProgramHdr s₀.mem elf i).pFilesz
      · -- the loader gives up
        have hfail : Sbunix.mapElfFile l elf (elfProgramHdr s₀.mem elf i) r = (0, l) := by
          simp only [Sbunix.mapElfFile, if_pos hsizes]
        simp only [hfail, if_pos hsizes, if_true] at hx ⊢
        exact ⟨Γ, H.mono h (by simp)⟩
      · simp only [if_neg hsizes] at htail ⊢
        -- memory has lasted at this segment as well
        have hlive : (Sbunix.mapElfFile l elf (elfProgramHdr s₀.mem elf i) r).2.phys.exhausted =
            false := by
          split at hx
          · exact hx
          · exact loadSegments_alive hx
        obtain ⟨hone, Γ₁, h₁⟩ := H.mapElfFile h (readWord_lt _ _ _) (Nat.not_lt.mp hsizes)
          (htail _ List.mem_cons_self) hlive
        have hne : (Sbunix.mapElfFile l elf (elfProgramHdr s₀.mem elf i) r).1 ≠ 0 := by
          rw [hone]
          exact Nat.one_ne_zero
        simp only [if_neg hne] at hx ⊢
        obtain ⟨Γ₂, h₂⟩ := ih h₁ hrest (fun hdr hh => htail hdr (List.mem_cons_of_mem _ hh)) hx
        -- its pages are those of the first segment and of the others
        refine ⟨Γ₂, H.mono h₂ ?_⟩
        intro v
        simp only [List.mem_cons, exists_eq_or_imp, or_assoc]
    · simp only [if_neg hload] at hx htail ⊢
      exact ih h hrest htail hx

/-- **The whole file**, whose headers do not wrap around and lie in pages in use. -/
theorem LoadSteps.loadFile {l : Loader} {elf size : Nat} (H : LoadSteps l.phys Γ₀ r I)
    (hstart : I (fun _ => False) l.phys Γ₀) (harch : Settled (· = r) Γ₀ elf (max size 64))
    (hheads : ePhoff l.phys.mem elf + ePhnum l.phys.mem elf * 56 < 2 ^ 64)
    (htail : ∀ hdr ∈ fileSegments l.phys.mem elf size, hdr.TailFits)
    (hx : (Sbunix.loadFile l (some (elf, size)) r).2.phys.exhausted = false) :
    ∃ Γ', I (fun v => ∃ hdr ∈ fileSegments l.phys.mem elf size, hdr.Page v)
      (Sbunix.loadFile l (some (elf, size)) r).2.phys Γ' := by
  -- a file that is turned down leaves everything as it was
  by_cases hmagic : validateElfFile l.phys.mem elf = false
  · simp only [Sbunix.loadFile, fileSegments, hmagic, if_true, true_or]
    exact ⟨Γ₀, H.mono hstart (by simp)⟩
  by_cases hsize : size < (ePhoff l.phys.mem elf + ePhnum l.phys.mem elf * 56) % 2 ^ 64
  · simp only [Sbunix.loadFile, fileSegments, if_neg hmagic, hsize, or_true, if_true]
    exact ⟨Γ₀, H.mono hstart (by simp)⟩
  have hgo : ¬(validateElfFile l.phys.mem elf = false ∨
      size < (ePhoff l.phys.mem elf + ePhnum l.phys.mem elf * 56) % 2 ^ 64) := by
    rw [not_or]
    exact ⟨hmagic, hsize⟩
  rw [fileSegments, if_neg hgo] at htail ⊢
  simp only [Sbunix.loadFile, if_neg hmagic, if_neg hsize] at hx ⊢
  have hstate : ∀ b : Bool × Loader, (if b.1 = true then (eEntry b.2.phys.mem elf, b.2)
      else (0, b.2)).2 = b.2 := by
    intro b
    split <;> rfl
  rw [hstate] at hx ⊢
  rw [Nat.mod_eq_of_lt hheads] at hsize
  -- the steps of a segment do not touch the program headers of the next ones
  obtain ⟨Γ', hL⟩ := H.loadSegments hstart (by
    intro s Γ hB i hi
    have hlt := List.mem_range.mp hi
    refine elfProgramHdr_congr (Nat.le_max_right size 64) ?_ fun x hlo hhi => harch.mem hB hlo hhi
    have := Nat.le_max_left size 64
    omega) htail hx
  exact ⟨Γ', H.mono hL (by simp)⟩

/-- An archive in use outside the tree. -/
theorem settled_archive {elf n : Nat} (hmin : ∀ f, Γ f ≠ .unowned → InTree s r f)
    (h : ∀ x, elf ≤ x → x < elf + n → x / 4096 < maxFrames ∧
      ¬ IsFree s.availFrames (x / 4096) ∧ ¬ InTree s r (x / 4096 * 4096)) :
    Settled (· = r) (settle s Γ) elf n := by
  intro x hlo hhi
  obtain ⟨h₁, h₂, h₃⟩ := h x hlo hhi
  have hdiv : x / 4096 * 4096 / 4096 = x / 4096 := Nat.mul_div_cancel _ (by decide)
  rw [settle_kernel hmin (by omega) (by rwa [hdiv]) (by rwa [hdiv]) h₃]
  simp

/-! ### Whole files -/

/-- A byte of the root's entries 0 to 510, or of a table that they lead to. -/
def UserHalfByte (s : Phys) (pml4 x : Nat) : Prop :=
  (pml4 ≤ x ∧ x < pml4 + 8 * 511) ∨ ∃ i q, i ≠ 511 ∧ TreePath (i :: q) ∧
    walk (child s.mem) pml4 (i :: q) = some (x / 4096 * 4096)

/-- **The kernel half is left alone**: its translations are the same, and of the pages that were in
use at the start none has changed but the tables of the user half. -/
structure KernelHalfKept (s s' : Phys) (pml4 : Nat) : Prop where
  translation : ∀ v, pml4Index v = 511 → s'.leaf v pml4 = s.leaf v pml4
  memory : ∀ x, x / 4096 < maxFrames → ¬ IsFree s.availFrames (x / 4096) →
    ¬ UserHalfByte s pml4 x → s'.mem x = s.mem x

/-- **The memory a file is loaded into**: the kernel half of the tree is the kernel's alone, and
the archive is in use. -/
structure KernelSpace (s : Phys) (elf size pml4 : Nat) : Prop where
  tree : WellFormed s pml4
  archive : ∀ x, elf ≤ x → x < elf + max size 64 → x / 4096 < maxFrames ∧
    ¬ IsFree s.availFrames (x / 4096) ∧ ¬ InTree s pml4 (x / 4096 * 4096)
  supervisor : ∀ v e, pml4Index v = 511 → s.leaf v pml4 = some e → e / 4 % 2 = 0

/-- The walks that begin with entry 511. -/
theorem walk_kernelByte (h₀ : Typed (Shape.single r) s₀ Γ₀)
    (hmem : ∀ x, KernelByte Γ₀ r x → s.mem x = s₀.mem x) {q : List Nat} (hq : TreePath (511 :: q)) :
    walk (child s.mem) r (511 :: q) = walk (child s₀.mem) r (511 :: q) := by
  -- induction from the end of the path: one more table of the kernel half
  induction q using List.reverseRecOn with
  | nil =>
    have hslot : entry s.mem r 511 = entry s₀.mem r 511 :=
      read64_congr fun x hlo hhi => hmem x (.inl ⟨hlo, by omega⟩)
    have hchild : child s.mem r 511 = child s₀.mem r 511 := by rw [child, child, hslot]
    simp only [walk, hchild]
  | append_singleton q i ih =>
    obtain ⟨hlen, hlt⟩ := hq
    have hq' : TreePath (511 :: q) := by
      refine ⟨?_, fun j hj => hlt j ?_⟩
      · simp only [List.length_cons, List.length_append] at hlen ⊢
        omega
      · rw [← List.cons_append]
        exact List.mem_append_left _ hj
    rw [← List.cons_append, walk_snoc, walk_snoc, ih hq']
    cases hw : walk (child s₀.mem) r (511 :: q) with
    | none => rfl
    | some t =>
      -- the table at the end of the shorter path is a page of the kernel half
      have hΓ := h₀.walk (Shape.single_dom.mpr ⟨rfl, hq'⟩) hw
      have hal := (h₀.owned t (by rw [hΓ]; simp)).1
      refine child_congr (hlt i (by simp)) fun x hlo hhi => hmem x (.inr ⟨q, ?_⟩)
      rw [show x / 4096 * 4096 = t by omega, hΓ]

/-- A kernel half that keeps its bytes keeps its translations. -/
theorem leaf_kernelByte (h₀ : Typed (Shape.single r) s₀ Γ₀)
    (hmem : ∀ x, KernelByte Γ₀ r x → s.mem x = s₀.mem x) (hv : pml4Index v = 511) :
    s.leaf v r = s₀.leaf v r := by
  have hq : TreePath [511, pdptIndex v, pdtIndex v] := by
    have h₁ := pdptIndex_lt v
    have h₂ := pdtIndex_lt v
    refine ⟨by simp, ?_⟩
    simp only [List.mem_cons, List.not_mem_nil, or_false, forall_eq_or_imp, forall_eq]
    omega
  have hpath : path v = [511, pdptIndex v, pdtIndex v] := by rw [path, hv]
  -- the page table is the same, and so is the entry in it
  have hpt : s.pageTable v r = s₀.pageTable v r := by
    rw [pageTable_eq_walk, pageTable_eq_walk, hpath]
    exact walk_kernelByte h₀ hmem hq
  unfold Phys.leaf
  rw [hpt]
  cases hw : s₀.pageTable v r with
  | none => rfl
  | some t =>
    rw [pageTable_eq_walk, hpath] at hw
    have hΓ := h₀.walk (Shape.single_dom.mpr ⟨rfl, hq⟩) hw
    have hal := (h₀.owned t (by rw [hΓ]; simp)).1
    refine congrArg some (entry_congr (ptIndex_lt v) fun x hlo hhi => hmem x
      (.inr ⟨[pdptIndex v, pdtIndex v], ?_⟩))
    rw [show x / 4096 * 4096 = t by omega, hΓ]

/-- An executable of 120 bytes whose only segment is the whole file, at the address `vaddr`. -/
def elfAt (vaddr : List UInt8) : List UInt8 :=
  [0x7F, 0x45, 0x4C, 0x46, 2, 1, 1, 0, 0, 0, 0, 0, 0, 0, 0, 0, 2, 0, 0x3E, 0, 1, 0, 0, 0] ++
  [0, 0, 0x40, 0, 0, 0, 0, 0, 64, 0, 0, 0, 0, 0, 0, 0, 0, 0, 0, 0, 0, 0, 0, 0] ++
  [0, 0, 0, 0, 64, 0, 56, 0, 1, 0, 0, 0, 0, 0, 0, 0] ++
  [1, 0, 0, 0, 5, 0, 0, 0, 0, 0, 0, 0, 0, 0, 0, 0] ++ vaddr ++
  [0, 0, 0, 0, 0, 0, 0, 0, 120, 0, 0, 0, 0, 0, 0, 0, 120, 0, 0, 0, 0, 0, 0, 0, 0, 16, 0, 0, 0, 0, 0, 0]

/-- `0x400000`. -/
def userVaddr : List UInt8 := [0, 0, 0x40, 0, 0, 0, 0, 0]

/-- `0xFFFFFFFFC0000000`. -/
def kernelVaddr : List UInt8 := [0, 0, 0, 0xC0, 0xFF, 0xFF, 0xFF, 0xFF]

/-- The file at `0x2000` and a PML4 at `0x1000`, which shares the table at `0x3000` with the kernel;
frames 8 to 15 are free. -/
def kernelLoader (vaddr : List UInt8) : Loader where
  phys :=
    { mem := fun x =>
        if 0x2000 ≤ x then (elfAt vaddr).getD (x - 0x2000) 0
        else if x = 0x1000 + 8 * 511 then 0x03 else if x = 0x1000 + 8 * 511 + 1 then 0x30 else 0
      availFrames := fun row => if row = 0 then 0xFF00#64 else 0#64
      exhausted := false
      tasks := fun _ => Task.zeroed }
  mmap := []
  pageNum := 0

theorem kernelLoader_child {vaddr : List UInt8} (hv : vaddr.length = 8) :
    (∀ i < 511, child (kernelLoader vaddr).phys.mem 0x1000 i = none) ∧
      child (kernelLoader vaddr).phys.mem 0x1000 511 = some 0x3000 ∧
      ∀ i < 512, child (kernelLoader vaddr).phys.mem 0x3000 i = none := by
  have hlen : (elfAt vaddr).length = 120 := by simp [elfAt, hv]
  refine ⟨fun i hi => ?_, ?_, fun i hi => ?_⟩
  · rw [child_eq_none, entry, read64_eq_zero]
    intro x hlo hhi
    simp only [kernelLoader]
    rw [if_neg (by omega), if_neg (by omega), if_neg (by omega)]
  · have hentry : entry (kernelLoader vaddr).phys.mem 0x1000 511 = 0x3003 := by
      simp [entry, read64, kernelLoader]
    rw [child, hentry]
    decide
  · rw [child_eq_none, entry, read64_eq_zero]
    intro x hlo hhi
    simp only [kernelLoader]
    rw [if_pos (by omega), List.getD_eq_getElem?_getD, List.getElem?_eq_none (by omega)]
    rfl

theorem kernelLoader_walk {vaddr : List UInt8} (hv : vaddr.length = 8) {q : List Nat} {t : Nat}
    (hq : TreePath q) (hw : walk (child (kernelLoader vaddr).phys.mem) 0x1000 q = some t) :
    q = [] ∧ t = 0x1000 ∨ q = [511] ∧ t = 0x3000 := by
  obtain ⟨hlow, htop, hleaf⟩ := kernelLoader_child hv
  -- the root has entry 511 only, and the table behind it has none
  match q, hq with
  | [], _ => exact .inl ⟨rfl, (Option.some.inj hw).symm⟩
  | [i], hq =>
    have hi := hq.2 i (by simp)
    by_cases h511 : i = 511
    · subst h511
      rw [walk, htop, Option.bind_some, walk_nil] at hw
      exact .inr ⟨rfl, (Option.some.inj hw).symm⟩
    · rw [walk, hlow i (by omega)] at hw
      cases hw
  | i :: j :: q, hq =>
    have hi := hq.2 i (by simp)
    have hj := hq.2 j (by simp)
    by_cases h511 : i = 511
    · subst h511
      rw [walk, htop, Option.bind_some, walk, hleaf j hj] at hw
      cases hw
    · rw [walk, hlow i (by omega)] at hw
      cases hw

theorem kernelLoader_space {vaddr : List UInt8} (hv : vaddr.length = 8) :
    KernelSpace (kernelLoader vaddr).phys 0x2000 120 0x1000 := by
  have hused : ∀ n < 8, ¬ IsFree (kernelLoader vaddr).phys.availFrames n := by
    simp only [kernelLoader, IsFree]
    decide
  refine ⟨⟨?_, ?_⟩, fun x hlo hhi => ?_, fun v e hidx he => ?_⟩
  · rintro t ⟨q, hq, hw⟩
    rcases kernelLoader_walk hv hq hw with ⟨-, rfl⟩ | ⟨-, rfl⟩
    · exact ⟨by decide, by decide, hused 1 (by decide)⟩
    · exact ⟨by decide, by decide, hused 3 (by decide)⟩
  · intro q q' t hq hq' hw hw'
    rcases kernelLoader_walk hv hq hw with ⟨rfl, rfl⟩ | ⟨rfl, rfl⟩
    · rcases kernelLoader_walk hv hq' hw' with ⟨rfl, -⟩ | ⟨-, h⟩
      · rfl
      · exact absurd h (by decide)
    · rcases kernelLoader_walk hv hq' hw' with ⟨-, h⟩ | ⟨rfl, -⟩
      · exact absurd h (by decide)
      · rfl
  · have hdiv : x / 4096 = 2 := by omega
    rw [hdiv]
    refine ⟨by decide, hused 2 (by decide), ?_⟩
    rintro ⟨q, hq, hw⟩
    rcases kernelLoader_walk hv hq hw with ⟨-, h⟩ | ⟨-, h⟩
    · exact absurd h (by decide)
    · exact absurd h (by decide)
  · -- nothing is mapped in the kernel half
    have hnone : (kernelLoader vaddr).phys.leaf v 0x1000 = none := by
      unfold Phys.leaf
      rw [pageTable_eq_walk, path, hidx]
      cases hw : walk (child (kernelLoader vaddr).phys.mem) 0x1000
          [511, pdptIndex v, pdtIndex v] with
      | none => rfl
      | some t =>
        have hq : TreePath [511, pdptIndex v, pdtIndex v] := by
          have h₁ := pdptIndex_lt v
          have h₂ := pdtIndex_lt v
          refine ⟨by simp, ?_⟩
          simp only [List.mem_cons, List.not_mem_nil, or_false, forall_eq_or_imp, forall_eq]
          omega
        rcases kernelLoader_walk hv hq hw with ⟨h, -⟩ | ⟨h, -⟩
        · cases h
        · cases h
    rw [hnone] at he
    cases he

theorem kernelLoader_segments {vaddr : List UInt8} (hv : vaddr = userVaddr ∨ vaddr = kernelVaddr) :
    ePhoff (kernelLoader vaddr).phys.mem 0x2000 = 64 ∧
      ePhnum (kernelLoader vaddr).phys.mem 0x2000 = 1 ∧
      fileSegments (kernelLoader vaddr).phys.mem 0x2000 120 =
        [⟨1, 5, 0, if vaddr = userVaddr then 0x400000 else 0xFFFFFFFFC0000000, 120, 120⟩] ∧
      (loadFile (kernelLoader vaddr) (some (0x2000, 120)) 0x1000).2.phys.exhausted = false := by
  rcases hv with rfl | rfl
  · exact ⟨by decide +kernel, by decide +kernel, by decide +kernel, by decide +kernel⟩
  · exact ⟨by decide +kernel, by decide +kernel, by decide +kernel, by decide +kernel⟩

end Sbunix
