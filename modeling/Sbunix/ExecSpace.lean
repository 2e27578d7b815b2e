import Sbunix.Release

/-!
# The address space of exec

What `exec` does to memory before it links the new task in: `stackForUser`, the ELF loader on
segments of any length, the argument block and the first push on the user stack. All of it takes
pages from the allocator, maps them under the new root and writes to pages taken on the way
(`Populates`), provided that the segments stay in the user half, that clearing the tail of a
segment stays in its last page, and that the argument block holds its pointers.
-/

namespace Sbunix

open ByteMem Kernel

variable {S : Shape} {W : Nat → Prop} {s₀ s s' : Phys} {Γ₀ Γ Γ' : Nat → Use} {r f v : Nat}

/-- **Populating a new tree.** Building goes on, and what the tree of `r` translates to are data
pages that have been taken on the way. -/
structure Populates (S : Shape) (W : Nat → Prop) (s₀ : Phys) (Γ₀ : Nat → Use) (r : Nat) (s : Phys)
    (Γ : Nat → Use) : Prop where
  builds : Builds S W s₀ Γ₀ s Γ
  leaves : Leaves S.top (IsNewData Γ₀ Γ) s r

/-- New pages stay new pages. -/
theorem IsNewData.ext (h : IsNewData Γ₀ Γ f) (hext : ∀ g, Γ g ≠ .unowned → Γ' g = Γ g) :
    IsNewData Γ₀ Γ' f :=
  ⟨by rw [hext f (by rw [h.1]; simp), h.1], h.2⟩

/-- Taking a page adds a use. -/
theorem Taken.update_ext (ht : Taken s s' f) (h : Typed S s Γ) (u : Use) :
    ∀ g, Γ g ≠ .unowned → Function.update Γ f u g = Γ g := by
  intro g hg
  refine Function.update_of_ne ?_ _ _
  rintro rfl
  exact hg (ht.unowned h)

/-- What is taken while building had no use at the start. -/
theorem Builds.new (h : Builds S W s₀ Γ₀ s Γ) (hf : Γ f = .unowned) : Γ₀ f = .unowned := by
  by_contra hne
  exact hne ((h.ext f hne).symm.trans hf)

theorem Populates.taken (h : Populates S W s₀ Γ₀ r s Γ) (hr : S.Root r) (ht : Taken s s' f)
    {u : Use} (hu : ∀ r p, u ≠ .table r p) (hu' : u ≠ .unowned) :
    Populates S W s₀ Γ₀ r s' (Function.update Γ f u) where
  builds := h.builds.taken ht hu hu'
  leaves v e hv he := by
    rw [ht.leaf h.builds.typed hr hv] at he
    exact (h.leaves v e hv he).mono fun g hg => hg.ext (ht.update_ext h.builds.typed u)

/-- **A page for a record.** -/
theorem Populates.node (h : Populates S W s₀ Γ₀ r s Γ) (hr : S.Root r)
    (hx : s.kmalloc.2.exhausted = false) :
    ∃ Γ', Populates S W s₀ Γ₀ r s.kmalloc.2 Γ' ∧ Γ' s.kmalloc.1 = .kernel ∧
      Γ₀ s.kmalloc.1 = .unowned ∧ ∀ g, Γ g ≠ .unowned → Γ' g = Γ g := by
  obtain ⟨ht, -, -⟩ := kmalloc_taken hx
  exact ⟨_, h.taken hr ht (u := .kernel) (by simp) (by simp), Function.update_self ..,
    h.builds.new (ht.unowned h.builds.typed), ht.update_ext h.builds.typed _⟩

/-- **A page that is mapped.** -/
theorem Populates.map (h : Populates S W s₀ Γ₀ r s Γ) (hr : S.Root r) (hW : W r)
    (hS : S.Accepts r user) (hv : pml4Index v < S.top) (hf : IsNewData Γ₀ Γ f)
    (hx : (s.mapPageForUser v f r).exhausted = false) :
    ∃ Γ', Populates S W s₀ Γ₀ r (s.mapPageForUser v f r) Γ' ∧
      (∀ g, Γ g ≠ .unowned → Γ' g = Γ g) ∧
      (s.mapPageForUser v f r).leaf v r = some (f + 7) ∧
      ∀ w, pml4Index w < S.top → OtherPage v w →
        LeafKept (s.leaf w r) ((s.mapPageForUser v f r).leaf w r) := by
  obtain ⟨Γ', ht, hself, hother⟩ := mapPageForUser_spec h.builds.typed hr hS hv hf.1 hx
  refine ⟨Γ', ⟨h.builds.touches ht hW, ?_⟩, ht.ext, hself, hother⟩
  refine h.leaves.set (fun g hg => hg.ext ht.ext) (fun e he => ?_) hother
  exact Or.inr ⟨f, hf.ext ht.ext, Or.inl (Option.some.inj (he.symm.trans hself))⟩

/-- **Writing to a page taken on the way** that is no table. -/
theorem Populates.edits (h : Populates S W s₀ Γ₀ r s Γ) (hr : S.Root r) (h₀ : Γ₀ f = .unowned)
    (hf : Γ f ≠ .unowned) (hΓ : ∀ r p, Γ f ≠ .table r p) (he : Edits s s' f) :
    Populates S W s₀ Γ₀ r s' Γ where
  builds := h.builds.edits he h₀ hf hΓ
  leaves v e hv hl := by
    rw [he.leaf h.builds.typed (h.builds.typed.owned f hf).1 hΓ hr hv] at hl
    exact h.leaves v e hv hl

/-- **Writing to a new page.** -/
theorem Populates.edit (h : Populates S W s₀ Γ₀ r s Γ) (hr : S.Root r) (hf : IsNewData Γ₀ Γ f)
    (he : Edits s s' f) : Populates S W s₀ Γ₀ r s' Γ :=
  h.edits hr hf.2 (by simp [hf.1]) (by simp [hf.1]) he

/-- **`kmalloc` and `mapPageForUser`**, the way every page of the new image comes about. -/
theorem Populates.kmallocMap (h : Populates S W s₀ Γ₀ r s Γ) (hr : S.Root r) (hW : W r)
    (hS : S.Accepts r user) (hv : pml4Index v < S.top)
    (hx : (s.kmalloc.2.mapPageForUser v s.kmalloc.1 r).exhausted = false) :
    ∃ Γ', Populates S W s₀ Γ₀ r (s.kmalloc.2.mapPageForUser v s.kmalloc.1 r) Γ' ∧
      IsNewData Γ₀ Γ' s.kmalloc.1 ∧ (∀ g, Γ g ≠ .unowned → Γ' g = Γ g) ∧
      (s.kmalloc.2.mapPageForUser v s.kmalloc.1 r).leaf v r = some (s.kmalloc.1 + 7) := by
  obtain ⟨ht, -, -⟩ := kmalloc_taken (mapPageForUser_alive hx)
  have hP := h.taken hr ht (u := .data) (by simp) (by simp)
  have hf : IsNewData Γ₀ (Function.update Γ s.kmalloc.1 .data) s.kmalloc.1 :=
    ⟨Function.update_self .., h.builds.new (ht.unowned h.builds.typed)⟩
  have hext := ht.update_ext h.builds.typed .data
  obtain ⟨Γ', hP', hext', hself, -⟩ := hP.map hr hW hS hv hf hx
  refine ⟨Γ', hP', hf.ext hext', fun g hg => ?_, hself⟩
  rw [hext' g (by rwa [hext g hg]), hext g hg]

/-! ### The loader -/

/-- A segment that stays where it belongs: its pages lie in the user half, and clearing its tail
does not leave its last page. -/
structure SegmentSafe (hdr : Elf64Phdr) : Prop where
  sizes : hdr.pFilesz ≤ hdr.pMemsz
  tail : hdr.pMemsz = hdr.pFilesz ∨ hdr.pFilesz + hdr.pMemsz ≤ 0x1000
  userHalf : ∀ x, hdr.pVaddr ≤ x → x < hdr.pVaddr + hdr.pMemsz + 0x1000 → pml4Index x < 511
  bound : hdr.pVaddr < 2 ^ 64

/-- The addresses of a safe segment do not wrap around. -/
theorem SegmentSafe.noWrap {hdr : Elf64Phdr} (h : SegmentSafe hdr) :
    hdr.pVaddr + hdr.pMemsz + 0x1000 < 2 ^ 64 := by
  by_contra hc
  have := h.userHalf (2 ^ 64 - 1) (by have := h.bound; omega) (by omega)
  rw [pml4Index_eq] at this
  omega

theorem mem_pageStarts {fuel start vEnd : Nat} {l : List Nat} (hv : vEnd + 4096 ≤ 2 ^ 64)
    (h : pageStarts fuel start vEnd = some l) {x : Nat} (hx : x ∈ l) : start ≤ x ∧ x < vEnd := by
  induction fuel generalizing start l with
  | zero => cases h
  | succ fuel ih =>
    unfold pageStarts at h
    split at h
    · next hlt =>
      obtain ⟨l', hl', rfl⟩ := Option.map_eq_some_iff.mp h
      rcases List.mem_cons.mp hx with rfl | hx
      · exact ⟨le_refl _, hlt⟩
      · have := ih hl' hx
        omega
    · obtain rfl := Option.some.inj h
      cases hx

/-- Addresses in the user half make a list of user pages. -/
theorem userPages_of_range {vma : Vma} (hv : vma.vEnd + 4096 ≤ 2 ^ 64)
    (h : ∀ x, vma.vStart ≤ x → x < vma.vEnd → pml4Index x < 511) : UserPages [vma] := by
  intro vma' hm starts hs x hx
  obtain rfl := List.mem_singleton.mp hm
  obtain ⟨h₁, h₂⟩ := mem_pageStarts hv hs hx
  exact h x h₁ h₂

theorem UserPages.append {l l' : List Vma} (h : UserPages l) (h' : UserPages l') :
    UserPages (l ++ l') := fun vma hm => (List.mem_append.mp hm).elim (h vma) (h' vma)

theorem copySegment_alive {elf fuel temp temp2 temp3 k : Nat}
    (hx : (copySegment elf r fuel s temp temp2 temp3 k).1.exhausted = false) :
    s.exhausted = false := by
  induction fuel generalizing s temp temp2 temp3 k with
  | zero => exact hx
  | succ fuel ih =>
    unfold copySegment at hx
    split at hx
    · split at hx
      · have := kmalloc_alive (mapPageForUser_alive (ih hx))
        rwa [Phys.memcpy_exhausted] at this
      · have := ih hx
        rwa [Phys.memcpy_exhausted] at this
    · exact hx

/-- **The copy loop.** It ends behind the last chunk, `c` bytes into a new page. -/
theorem copySegment_populates {elf fuel temp temp2 temp3 : Nat} (h : Populates S W s₀ Γ₀ r s Γ)
    (hr : S.Root r) (hW : W r) (hS : S.Accepts r user) (htop : S.top = 511)
    (hf : IsNewData Γ₀ Γ f) (hv : ∀ x, temp2 ≤ x → x < temp2 + temp → pml4Index x < 511)
    (hwrap : temp2 + temp < 2 ^ 64)
    (hx : (copySegment elf r fuel s temp temp2 temp3 f).1.exhausted = false) :
    ∃ Γ' g c, Populates S W s₀ Γ₀ r (copySegment elf r fuel s temp temp2 temp3 f).1 Γ' ∧
      IsNewData Γ₀ Γ' g ∧ (copySegment elf r fuel s temp temp2 temp3 f).2 = g + c ∧ c ≤ temp ∧
      c ≤ 4096 := by
  induction fuel generalizing s Γ f temp temp2 temp3 with
  | zero => exact ⟨Γ, f, 0, h, hf, rfl, Nat.zero_le _, Nat.zero_le _⟩
  | succ fuel ih =>
    unfold copySegment at hx ⊢
    split
    · next hpos =>
      rw [if_pos hpos] at hx
      split
      · next hbig =>
        rw [if_pos hbig] at hx
        -- a whole page is copied, and the next one is mapped
        dsimp only at hx ⊢
        set t := s.memcpy (elf + 64 * temp3) f 0x1000 with ht
        have hP := h.edit hr hf (memcpy_edits s (le_refl f) (by omega) : Edits s t f)
        have hnext : (temp2 + 0x1000) % 2 ^ 64 = temp2 + 0x1000 :=
          Nat.mod_eq_of_lt (by omega)
        rw [hnext] at hx ⊢
        have hv' : pml4Index (temp2 + 0x1000) < S.top :=
          htop ▸ hv (temp2 + 0x1000) (by omega) (by omega)
        obtain ⟨Γ', hP', hf', -, -⟩ := hP.kmallocMap hr hW hS hv' (copySegment_alive hx)
        obtain ⟨Γ'', g, c, h₁, h₂, h₃, h₄, h₅⟩ := ih hP' hf'
          (fun x hx hx' => hv x (by omega) (by omega)) (by omega) hx
        exact ⟨Γ'', g, c, h₁, h₂, h₃, by omega, h₅⟩
      · next hsmall =>
        rw [if_neg hsmall] at hx
        -- the last chunk; nothing is left for the rounds behind it
        have hrest : ∀ (t : Phys) (a b k : Nat), copySegment elf r fuel t 0 a b k = (t, k) := by
          intro t a b k
          cases fuel with
          | zero => rfl
          | succ n => simp [copySegment]
        rw [hrest] at hx ⊢
        exact ⟨Γ, f, temp, h.edit hr hf (memcpy_edits s (le_refl f) (by omega)), hf, rfl,
          le_refl _, by omega⟩
    · next hz =>
      exact ⟨Γ, f, 0, h, hf, rfl, Nat.zero_le _, Nat.zero_le _⟩

/-- **`map_elf_file`** on a safe segment. -/
theorem mapElfFile_populates {l : Loader} {elf : Nat} {hdr : Elf64Phdr}
    (h : Populates S W s₀ Γ₀ r l.phys Γ) (hr : S.Root r) (hW : W r) (hS : S.Accepts r user)
    (htop : S.top = 511) (hseg : SegmentSafe hdr) (hm : UserPages l.mmap)
    (hx : (mapElfFile l elf hdr r).2.phys.exhausted = false) :
    (mapElfFile l elf hdr r).1 = 1 ∧ UserPages (mapElfFile l elf hdr r).2.mmap ∧
      ∃ Γ', Populates S W s₀ Γ₀ r (mapElfFile l elf hdr r).2.phys Γ' := by
  have hwrap := hseg.noWrap
  have hsizes := hseg.sizes
  unfold mapElfFile at hx ⊢
  rw [if_neg (Nat.not_lt.mpr hseg.sizes)] at hx ⊢
  dsimp only at hx ⊢
  refine ⟨rfl, hm.append ?_, ?_⟩
  · -- the pages of the new VMA
    have hend : (((hdr.pVaddr + hdr.pMemsz) % 2 ^ 64 &&& frame) + 0x1000) % 2 ^ 64 =
        (hdr.pVaddr + hdr.pMemsz) / 4096 * 4096 + 0x1000 := by
      rw [Nat.mod_eq_of_lt (by omega : hdr.pVaddr + hdr.pMemsz < 2 ^ 64), and_frame (by omega)]
      exact Nat.mod_eq_of_lt (by omega)
    refine userPages_of_range ?_ fun x hx hx' => hseg.userHalf x hx ?_
    · dsimp only
      rw [hend]
      omega
    · dsimp only at hx'
      rw [hend] at hx'
      omega
  · have hx₃ := copySegment_alive hx
    have hx₁ : l.phys.kmalloc.2.exhausted = false := kmalloc_alive (mapPageForUser_alive hx₃)
    obtain ⟨Γ₁, h₁, -, -, -⟩ := h.node hr hx₁
    obtain ⟨Γ₂, h₂, hf, -, -⟩ := h₁.kmallocMap hr hW hS
      (htop ▸ hseg.userHalf _ (le_refl _) (by omega)) hx₃
    obtain ⟨Γ₃, g, c, h₃, hg, hk, hc, hc'⟩ := copySegment_populates h₂ hr hW hS htop hf
      (fun x hx hx' => hseg.userHalf x hx (by omega)) (by omega) hx
    refine ⟨Γ₃, h₃.edit hr hg ?_⟩
    rw [hk]
    refine ⟨rfl, rfl, fun x hx => ?_, fun _ _ => rfl⟩
    dsimp only
    rw [fill_apply, if_neg]
    have := hseg.tail
    omega

/-! ### Whole files -/

/-- **A file that `exec` can load**: an executable in the kernel image, with headers inside the
file, at most 101 loadable segments in front of its last header, and an entry point. -/
structure Loadable (m : Mem) (elf size : Nat) : Prop where
  magic : validateElfFile m elf = true
  header : 64 ≤ size
  headers : ePhoff m elf + ePhnum m elf * 56 ≤ size
  count : ∀ i < ePhnum m elf,
    (List.range i).countP (fun j => (elfProgramHdr m elf j).pType = elfPtLoad) ≤ 100
  segments : ∀ i, IsLoad m elf i → SegmentSafe (elfProgramHdr m elf i)
  entryPoint : eEntry m elf ≠ 0
  bound : size < 2 ^ 64

/-- The header fields that `loadFile` reads, in a memory with the same file. -/
theorem elfHeader_congr {m m' : Mem} {elf size : Nat} (h64 : 64 ≤ size)
    (h : ∀ x, elf ≤ x → x < elf + size → m' x = m x) :
    validateElfFile m' elf = validateElfFile m elf ∧ ePhnum m' elf = ePhnum m elf ∧
      ePhoff m' elf = ePhoff m elf ∧ eEntry m' elf = eEntry m elf := by
  have hword : ∀ a n, a + 8 ≤ 64 → readWord m' (elf + a) n = readWord m (elf + a) n := fun a n ha =>
    readWord_congr fun x hx hx' => h x (by omega) (by omega)
  refine ⟨?_, hword 56 2 (by decide), hword 32 8 (by decide), hword 24 8 (by decide)⟩
  unfold validateElfFile
  rw [h elf (by omega) (by omega), h (elf + 1) (by omega) (by omega),
    h (elf + 2) (by omega) (by omega), h (elf + 3) (by omega) (by omega),
    eType, hword 16 2 (by decide), ← eType]

theorem Loadable.congr {m m' : Mem} {elf size : Nat} (h : Loadable m elf size)
    (hm : ∀ x, elf ≤ x → x < elf + size → m' x = m x) : Loadable m' elf size := by
  obtain ⟨h₁, h₂, h₃, h₄⟩ := elfHeader_congr h.header hm
  have hhdr : ∀ i < ePhnum m elf, elfProgramHdr m' elf i = elfProgramHdr m elf i := fun i hi =>
    elfProgramHdr_congr h.header (by have := h.headers; omega) hm
  refine ⟨h₁.trans h.magic, h.header, by rw [h₂, h₃]; exact h.headers, fun i hi => ?_,
    fun i hi => ?_, h₄ ▸ h.entryPoint, h.bound⟩
  · rw [h₂] at hi
    rw [List.countP_congr (q := fun j => decide ((elfProgramHdr m elf j).pType = elfPtLoad))]
    · exact h.count i hi
    · intro j hj
      rw [hhdr j (by have := List.mem_range.mp hj; omega)]
  · have hi' : i < ePhnum m elf := h₂ ▸ hi.1
    rw [hhdr i hi']
    exact h.segments i ⟨hi', hhdr i hi' ▸ hi.2⟩

/-- The loader does not give memory back. -/
theorem loadSegments_alive {l : Loader} {elf counter : Nat} {is : List Nat}
    (hx : (loadSegments elf r is counter l).2.phys.exhausted = false) :
    l.phys.exhausted = false := by
  induction is generalizing counter l with
  | nil => exact hx
  | cons i is ih =>
    have hmap : ∀ hdr, (mapElfFile l elf hdr r).2.phys.exhausted = false →
        l.phys.exhausted = false := by
      intro hdr hx
      unfold mapElfFile at hx
      split at hx
      · exact hx
      · exact kmalloc_alive (kmalloc_alive (mapPageForUser_alive (copySegment_alive hx)))
    simp only [loadSegments] at hx
    split at hx
    · exact hx
    · split at hx
      · split at hx
        · exact hmap _ hx
        · exact hmap _ (ih hx)
      · exact ih hx

/-- **The loop over the program headers.** -/
theorem loadSegments_populates {l : Loader} {elf size : Nat} {d is : List Nat}
    (hL : Loadable s₀.mem elf size) (harch : Settled W Γ₀ elf size)
    (h : Populates S W s₀ Γ₀ r l.phys Γ) (hr : S.Root r) (hW : W r) (hS : S.Accepts r user)
    (htop : S.top = 511) (hm : UserPages l.mmap) (hlist : d ++ is = List.range (ePhnum s₀.mem elf))
    (hx : (loadSegments elf r is (d.countP fun j =>
      (elfProgramHdr s₀.mem elf j).pType = elfPtLoad) l).2.phys.exhausted = false) :
    let out := loadSegments elf r is (d.countP fun j =>
      (elfProgramHdr s₀.mem elf j).pType = elfPtLoad) l
    out.1 = true ∧ UserPages out.2.mmap ∧ ∃ Γ', Populates S W s₀ Γ₀ r out.2.phys Γ' := by
  dsimp only
  -- `d` are the headers that are done, so the counter is the number of segments among them
  induction is generalizing d l Γ with
  | nil => exact ⟨rfl, hm, Γ, h⟩
  | cons i is ih =>
    have hlt : d.length < ePhnum s₀.mem elf := by
      have := congrArg List.length hlist
      simp only [List.length_append, List.length_cons, List.length_range] at this
      omega
    have hlen : d.length = i ∧ i < ePhnum s₀.mem elf := by
      have h₁ : (d ++ i :: is)[d.length]? = some i := by simp
      rw [hlist, List.getElem?_range hlt, Option.some.injEq] at h₁
      exact ⟨h₁, h₁ ▸ hlt⟩
    have hdone : d = List.range i := by
      have := congrArg (List.take d.length) hlist
      rw [List.take_left] at this
      rw [this, List.take_range, hlen.1]
      congr 1
      omega
    have hcount := hL.count i hlen.2
    rw [← hdone] at hcount
    -- what has been loaded has not overwritten the headers
    have hhdr : elfProgramHdr l.phys.mem elf i = elfProgramHdr s₀.mem elf i :=
      elfProgramHdr_congr hL.header (by have := hL.headers; omega)
        fun x hx hx' => harch.mem h.builds hx hx'
    simp only [loadSegments, hhdr] at hx ⊢
    rw [if_neg (by omega)] at hx ⊢
    have happ : (d ++ [i]) ++ is = List.range (ePhnum s₀.mem elf) := by simpa using hlist
    split
    · next hload =>
      rw [if_pos hload] at hx
      have hc : (d ++ [i]).countP (fun j => (elfProgramHdr s₀.mem elf j).pType = elfPtLoad) =
          d.countP (fun j => (elfProgramHdr s₀.mem elf j).pType = elfPtLoad) + 1 := by
        simp [List.countP_append, hload]
      have hx' : (mapElfFile l elf (elfProgramHdr s₀.mem elf i) r).2.phys.exhausted = false := by
        split at hx
        · exact hx
        · exact loadSegments_alive hx
      obtain ⟨hone, hm', Γ', h'⟩ := mapElfFile_populates h hr hW hS htop
        (hL.segments i ⟨hlen.2, hload⟩) hm hx'
      rw [if_neg (by rw [hone]; decide)] at hx ⊢
      rw [← hc] at hx ⊢
      exact ih h' hm' happ hx
    · next hload =>
      rw [if_neg hload] at hx
      have hc : (d ++ [i]).countP (fun j => (elfProgramHdr s₀.mem elf j).pType = elfPtLoad) =
          d.countP (fun j => (elfProgramHdr s₀.mem elf j).pType = elfPtLoad) := by
        simp [List.countP_append, hload]
      rw [← hc] at hx ⊢
      exact ih h hm happ hx

theorem loadFile_alive {l : Loader} {found : Option (Nat × Nat)}
    (hx : (loadFile l found r).2.phys.exhausted = false) : l.phys.exhausted = false := by
  unfold loadFile at hx
  split at hx
  · exact hx
  · split at hx
    · exact hx
    · split at hx
      · exact hx
      · dsimp only at hx
        split at hx <;> exact loadSegments_alive hx

/-- **`loadFile`** on a file of the archive. -/
theorem loadFile_populates {l : Loader} {elf size : Nat} (hL : Loadable s₀.mem elf size)
    (harch : Settled W Γ₀ elf size) (h : Populates S W s₀ Γ₀ r l.phys Γ) (hr : S.Root r)
    (hW : W r) (hS : S.Accepts r user) (htop : S.top = 511) (hm : UserPages l.mmap)
    (hx : (loadFile l (some (elf, size)) r).2.phys.exhausted = false) :
    (loadFile l (some (elf, size)) r).1 ≠ 0 ∧ UserPages (loadFile l (some (elf, size)) r).2.mmap ∧
      ∃ Γ', Populates S W s₀ Γ₀ r (loadFile l (some (elf, size)) r).2.phys Γ' := by
  have hsame : ∀ {t Γt}, Populates S W s₀ Γ₀ r t Γt → ∀ x, elf ≤ x → x < elf + size →
      t.mem x = s₀.mem x := fun ht x hx hx' => harch.mem ht.builds hx hx'
  -- the checks of the header
  obtain ⟨hmagic, hphnum, hphoff, -⟩ := elfHeader_congr hL.header (hsame h)
  rw [hL.magic] at hmagic
  have hend : ¬ size < (ePhoff l.phys.mem elf + ePhnum l.phys.mem elf * 56) % 2 ^ 64 := by
    have := hL.headers
    have := hL.bound
    rw [hphnum, hphoff, Nat.mod_eq_of_lt (by omega)]
    omega
  rw [hphnum] at hend
  simp only [loadFile, hmagic, hphnum, if_neg hend, Bool.true_eq_false, if_false] at hx ⊢
  have hx' : (loadSegments elf r (List.range (ePhnum s₀.mem elf)) 0 l).2.phys.exhausted = false := by
    split at hx <;> exact hx
  obtain ⟨hone, hm', Γ', hP⟩ :=
    loadSegments_populates (d := []) hL harch h hr hW hS htop hm (List.nil_append _) hx'
  simp only [List.countP_nil] at hone hm' hP
  rw [if_pos hone]
  refine ⟨?_, hm', Γ', hP⟩
  dsimp only
  rw [(elfHeader_congr hL.header (hsame hP)).2.2.2]
  exact hL.entryPoint

/-! ### The stack -/

theorem pml4Index_stack : pml4Index (stackTop - 0x1000) = 510 := by decide

theorem stackForUser_alive {l : Loader} {pml4 : Nat}
    (hx : (stackForUser l r pml4).phys.exhausted = false) : l.phys.exhausted = false := by
  simp only [stackForUser] at hx
  have := kmalloc_alive hx
  rw [Phys.memset_exhausted] at this
  exact (pageAllocator_taken (mapPageForUser_alive (mapWith_alive this))).live

/-- **`stackForUser`**: a page at the top of the stack, which the kernel's own tree maps too. -/
theorem stackForUser_populates {l : Loader} {pml4 : Nat} {roots : List Nat}
    (h : Populates (userShape pml4 roots) W s₀ Γ₀ r l.phys Γ) (hr : r ∈ roots) (hW : W r)
    (hWk : W pml4) (hne : r ≠ pml4) (hm : UserPages l.mmap)
    (hx : (stackForUser l r pml4).phys.exhausted = false) :
    UserPages (stackForUser l r pml4).mmap ∧
      ∃ Γ', Populates (userShape pml4 roots) W s₀ Γ₀ r (stackForUser l r pml4).phys Γ' ∧
        ∃ f, IsNewData Γ₀ Γ' f ∧
          (stackForUser l r pml4).phys.leaf (stackTop - 0x1000) r = some (f + 7) := by
  have hS := userShape_accepts pml4 roots r
  have hroot : (userShape pml4 roots).Root r := Or.inr hr
  have hv : pml4Index (stackTop - 0x1000) < (userShape pml4 roots).top := by
    rw [pml4Index_stack]
    exact (by decide : 510 < 511)
  simp only [stackForUser] at hx ⊢
  refine ⟨hm.append (userPages_of_range ?_ fun x hx hx' => ?_), ?_⟩
  · exact (by decide : stackTop + 4096 ≤ 2 ^ 64)
  · dsimp only [stackTop] at hx hx'
    rw [pml4Index_eq]
    omega
  obtain ⟨f, s₁, h₁⟩ : ∃ f s₁, l.phys.pageAllocator = (f, s₁) := ⟨_, _, rfl⟩
  simp only [h₁] at hx ⊢
  set s₂ := s₁.mapPageForUser (stackTop - 0x1000) f r with hs₂
  set s₃ := s₂.forceMapPage (stackTop - 0x1000) f pml4 false with hs₃
  have hx₄ : (s₃.memset f).exhausted = false := kmalloc_alive hx
  have hx₃ : s₃.exhausted = false := by rwa [Phys.memset_exhausted] at hx₄
  have hx₂ : s₂.exhausted = false := mapWith_alive hx₃
  have hx₁ : s₁.exhausted = false := mapPageForUser_alive hx₂
  have ht : Taken l.phys s₁ f := by
    have := pageAllocator_taken (s := l.phys) (by rwa [h₁])
    rwa [h₁] at this
  have hP₁ := h.taken hroot ht (u := .data) (by simp) (by simp)
  have hf₁ : IsNewData Γ₀ (Function.update Γ f .data) f :=
    ⟨Function.update_self .., h.builds.new (ht.unowned h.builds.typed)⟩
  obtain ⟨Γ₂, hP₂, hext₂, hself₂, -⟩ := hP₁.map hroot hW hS hv hf₁ hx₂
  have hf₂ := hf₁.ext hext₂
  obtain ⟨hal, hlt, -⟩ := data_aligned hP₂.builds.typed hf₂.1
  have hf52 : f < 2 ^ 52 := by
    have hlt' : f / 4096 < 65536 := hlt
    omega
  -- the kernel's own tree
  obtain ⟨Γ₃, ht₃, -, -⟩ := mapWith_spec hP₂.builds.typed (Or.inl rfl) hv hal hf52 hx₃
    (userShape_accepts_kernel pml4 roots)
  replace ht₃ : Touches (userShape pml4 roots) pml4 s₂ s₃ Γ₂ Γ₃ := ht₃
  have hleaf₃ : ∀ w, pml4Index w < (userShape pml4 roots).top → s₃.leaf w r = s₂.leaf w r :=
    fun w hw => ht₃.leaf_other hP₂.builds.typed hroot hne hw
  have hP₃ : Populates (userShape pml4 roots) W s₀ Γ₀ r s₃ Γ₃ := by
    refine ⟨hP₂.builds.touches ht₃ hWk, fun v e hv he => ?_⟩
    rw [hleaf₃ v hv] at he
    exact (hP₂.leaves v e hv he).mono fun g hg => hg.ext ht₃.ext
  have hf₃ := hf₂.ext ht₃.ext
  have hP₄ := hP₃.edit hroot hf₃ (memset_edits s₃ f)
  obtain ⟨Γ₅, hP₅, -, -, hext₅⟩ := hP₄.node hroot hx
  refine ⟨Γ₅, hP₅, f, hf₃.ext hext₅, ?_⟩
  rw [(kmalloc_taken hx).1.leaf hP₄.builds.typed hroot hv,
    (memset_edits s₃ f).leaf hP₃.builds.typed hal (by simp [hf₃.1]) hroot hv, hleaf₃ _ hv]
  exact hself₂

/-- A push on a user page. -/
theorem pushUser_populates {rsp x : Nat} (h : Populates S W s₀ Γ₀ r s Γ) (hr : S.Root r)
    (hv : pml4Index (rsp - 8) < S.top) (hoff : (rsp - 8) % 4096 ≤ 4088)
    (hp : pushUser s rsp x r = some s') : Populates S W s₀ Γ₀ r s' Γ := by
  obtain ⟨a, ha, rfl⟩ := Option.map_eq_some_iff.mp hp
  rw [translate_eq] at ha
  obtain ⟨e, he, ha⟩ := Option.bind_eq_some_iff.mp ha
  obtain rfl | ⟨g, hg, hge⟩ := h.leaves _ e hv he
  · cases ha
  · obtain ⟨hal, hlt, -⟩ := data_aligned h.builds.typed hg.1
    rw [if_pos (by omega), Option.some.injEq] at ha
    exact h.edit hr hg (store64_edits s (by omega) (by omega))

/-! ### The argument block -/

theorem writeBytes_edits (s : Phys) {a : Nat} {l : List UInt8} (ha : f ≤ a)
    (ha' : a + l.length ≤ f + 4096) : Edits s { s with mem := writeBytes s.mem a l } f :=
  ⟨rfl, rfl, fun x hx => writeBytes_of_out _ (by omega), fun _ _ => rfl⟩

theorem pushEnv_alive {envStart : Nat} {envp : List (List UInt8)}
    (hx : (pushEnv r s envStart envp).1.exhausted = false) : s.exhausted = false := by
  induction envp generalizing s envStart with
  | nil => exact hx
  | cons e rest ih =>
    have := mapPageForUser_alive (ih hx)
    exact kmalloc_alive this

/-- **The environment pages.** -/
theorem pushEnv_populates {envStart : Nat} {envp : List (List UInt8)}
    (h : Populates S W s₀ Γ₀ r s Γ) (hr : S.Root r) (hW : W r) (hS : S.Accepts r user)
    (htop : S.top = 511) (hlen : envStart + 0x1000 * envp.length < 2 ^ 39)
    (hx : (pushEnv r s envStart envp).1.exhausted = false) :
    (pushEnv r s envStart envp).2 = envStart + 0x1000 * envp.length ∧
      ∃ Γ', Populates S W s₀ Γ₀ r (pushEnv r s envStart envp).1 Γ' ∧
        ∀ g, Γ g ≠ .unowned → Γ' g = Γ g := by
  induction envp generalizing s Γ envStart with
  | nil => exact ⟨rfl, Γ, h, fun _ _ => rfl⟩
  | cons e rest ih =>
    simp only [pushEnv, List.length_cons] at hx hlen ⊢
    have hx₂ := pushEnv_alive hx
    have hx₁ : s.kmalloc.2.exhausted = false := by
      have := mapPageForUser_alive hx₂
      dsimp only at this
      exact this
    obtain ⟨ht, -, -⟩ := kmalloc_taken hx₁
    have hP₁ := h.taken hr ht (u := .data) (by simp) (by simp)
    have hf₁ : IsNewData Γ₀ (Function.update Γ s.kmalloc.1 .data) s.kmalloc.1 :=
      ⟨Function.update_self .., h.builds.new (ht.unowned h.builds.typed)⟩
    have hbytes : s.kmalloc.1 + (e.take 512 ++ [0]).length ≤ s.kmalloc.1 + 4096 := by
      have : (e.take 512).length ≤ 512 := List.length_take_le ..
      rw [List.length_append, List.length_singleton]
      generalize s.kmalloc.1 = k
      omega
    have hP₂ := hP₁.edit hr hf₁ (writeBytes_edits s.kmalloc.2 (le_refl s.kmalloc.1) hbytes)
    have hv : pml4Index envStart < S.top := by
      rw [htop, pml4Index_eq]
      omega
    obtain ⟨Γ₃, hP₃, hext, -, -⟩ := hP₂.map hr hW hS hv hf₁ hx₂
    obtain ⟨h₁, Γ', h₂, h₃⟩ := ih hP₃ (by omega) hx
    refine ⟨by rw [h₁]; omega, Γ', h₂, fun g hg => ?_⟩
    have hg₁ := ht.update_ext h.builds.typed .data g hg
    have hg₃ := (hext g (by rwa [hg₁])).trans hg₁
    rw [h₃ g (by rwa [hg₃]), hg₃]

/-- The environment pointers go to the argument block. -/
theorem pushEnvPointers_edits {n z i m : Nat} (hlo : f + 8 * n ≤ m)
    (hhi : m ≤ f + 4096) :
    Edits s (pushEnvPointers n s z i m).1 f ∧
      (pushEnvPointers n s z i m).2 = m - 8 * n := by
  induction n generalizing s z i m with
  | zero => exact ⟨.refl s f, rfl⟩
  | succ n ih =>
    unfold pushEnvPointers
    split
    · obtain ⟨h₁, h₂⟩ := ih (s := s.store64 (m - 8) i) (z := z - 0x1000) (i := i - 0x1000)
        (m := m - 8) (by omega) (by omega)
      exact ⟨(store64_edits s (by omega) (by omega)).trans h₁, by rw [h₂]; omega⟩
    · obtain ⟨h₁, h₂⟩ := ih (s := s) (z := z - 0x1000) (i := i) (m := m - 8)
        (by omega) (by omega)
      exact ⟨h₁, by rw [h₂]; omega⟩

/-- **The arguments**: pointers go to the block, strings to the page `g`. -/
theorem pushArgs_populates {g j m : Nat} {l : List (List UInt8)}
    (h : Populates S W s₀ Γ₀ r s Γ) (hr : S.Root r) (hf : IsNewData Γ₀ Γ f)
    (hg : IsNewData Γ₀ Γ g) (hlen : l.length ≤ 476) (hj : j + l.length ≤ 1000)
    (hlo : f + 8 * l.length ≤ m) (hhi : m ≤ f + 4096) :
    Populates S W s₀ Γ₀ r (pushArgs g l s j m).1 Γ ∧
      (pushArgs g l s j m).2 = m - 8 * l.length := by
  induction l generalizing s j m with
  | nil => exact ⟨h, rfl⟩
  | cons a rest ih =>
    simp only [pushArgs, List.length_cons] at hlen hj hlo ⊢
    have htext : (a.take (511 - j)).length ≤ 511 - j := List.length_take_le ..
    have h₁ := h.edit hr hf (store64_edits s (a := m - 8) (v := j + 0x301000) (by omega)
      (by omega))
    have h₂ := h₁.edit hr hg (writeBytes_edits _ (a := g + j) (l := a.take (511 - j) ++ [0])
      (by omega) (by rw [List.length_append, List.length_singleton]; omega))
    obtain ⟨h₃, h₄⟩ := ih h₂ (by omega) (j := j + (a.take (511 - j)).length + 1) (by omega)
      (m := m - 8) (by omega) (by omega)
    exact ⟨h₃, by rw [h₄]; omega⟩

theorem pushArgs_exhausted {g j mainArgs : Nat} {args : List (List UInt8)} :
    (pushArgs g args s j mainArgs).1.exhausted = s.exhausted := by
  induction args generalizing s j mainArgs with
  | nil => rfl
  | cons a rest ih =>
    rw [pushArgs, ih]
    simp only [Phys.store64_exhausted]

theorem argumentBlock_alive {args envp : List (List UInt8)}
    (hx : (argumentBlock s r args envp).1.exhausted = false) : s.exhausted = false := by
  unfold argumentBlock at hx
  dsimp only at hx
  rw [Phys.store64_exhausted] at hx
  have h₁ := mapPageForUser_alive hx
  rw [pushArgs_exhausted] at h₁
  have h₂ := kmalloc_alive h₁
  rw [Phys.store64_exhausted, (pushEnvPointers_edits (f := s.kmalloc.1) (by omega)
    (by omega)).1.exhausted] at h₂
  have h₃ := pushEnv_alive (kmalloc_alive (mapPageForUser_alive h₂))
  rw [Phys.store64_exhausted] at h₃
  exact kmalloc_alive (mapPageForUser_alive h₃)

/-- **The argument block.** -/
theorem argumentBlock_populates {args envp : List (List UInt8)} (h : Populates S W s₀ Γ₀ r s Γ)
    (hr : S.Root r) (hW : W r) (hS : S.Accepts r user) (htop : S.top = 511)
    (hargs : args.length ≤ 476) (henvp : envp.length ≤ maxFrames)
    (hx : (argumentBlock s r args envp).1.exhausted = false) :
    ∃ Γ', Populates S W s₀ Γ₀ r (argumentBlock s r args envp).1 Γ' := by
  have henvp' : envp.length ≤ 65536 := henvp
  have hv : ∀ v, v < 2 ^ 39 → pml4Index v < S.top := fun v hv => by
    rw [htop, pml4Index_eq]
    omega
  unfold argumentBlock at hx ⊢
  dsimp only at hx ⊢
  -- the block and the environment
  set f := s.kmalloc.1 with hf
  set s₁ := s.kmalloc.2.mapPageForUser 0x300000 f r with hs₁
  set s₂ := s₁.store64 (f + 0x1000 - 8) 0 with hs₂
  set env := pushEnv r s₂ 0x302000 envp with henv
  set s₃ := env.1.kmalloc.2.mapPageForUser env.2 env.1.kmalloc.1 r with hs₃
  set pointers := pushEnvPointers 33 s₃ 0x322000 env.2 (f + 0x1000 - 8) with hpointers
  set s₄ := pointers.1.store64 (pointers.2 - 8) 0 with hs₄
  set pushed := pushArgs s₄.kmalloc.1 args.reverse s₄.kmalloc.2 0 (pointers.2 - 8) with hpushed
  set s₅ := pushed.1.mapPageForUser 0x301000 s₄.kmalloc.1 r with hs₅
  have hx₅ : s₅.exhausted = false := by rwa [Phys.store64_exhausted] at hx
  have hxk : s₄.kmalloc.2.exhausted = false := by
    have := mapPageForUser_alive hx₅
    rwa [hpushed, pushArgs_exhausted] at this
  have hE := pushEnvPointers_edits (s := s₃) (f := f) (n := 33) (z := 0x322000) (i := env.2)
    (m := f + 0x1000 - 8) (by omega) (by omega)
  rw [← hpointers] at hE
  have hx₃ : s₃.exhausted = false := by
    have := kmalloc_alive hxk
    rwa [hs₄, Phys.store64_exhausted, hE.1.exhausted] at this
  have hxe : env.1.exhausted = false := kmalloc_alive (mapPageForUser_alive hx₃)
  have hx₁ : s₁.exhausted = false := by
    have := pushEnv_alive hxe
    rwa [hs₂, Phys.store64_exhausted] at this
  obtain ⟨Γ₁, h₁, hf₁, -, -⟩ := h.kmallocMap hr hW hS (hv 0x300000 (by decide)) hx₁
  have h₂ := h₁.edit hr hf₁ (store64_edits s₁ (a := f + 0x1000 - 8) (v := 0) (by omega) (by omega))
  obtain ⟨henv₂, Γe, he, hexte⟩ := pushEnv_populates h₂ hr hW hS htop (by omega) hxe
  obtain ⟨Γ₃, h₃, -, hext₃, -⟩ := he.kmallocMap hr hW hS (v := env.2)
    (hv _ (by rw [henv, henv₂]; omega)) hx₃
  have hf₃ : IsNewData Γ₀ Γ₃ f := (hf₁.ext hexte).ext hext₃
  -- the pointers and the arguments
  have h₄ : Populates S W s₀ Γ₀ r s₄ Γ₃ := h₃.edit hr hf₃
    (hE.1.trans (store64_edits _ (by rw [hE.2]; omega) (by rw [hE.2]; omega)))
  obtain ⟨ht, -, -⟩ := kmalloc_taken hxk
  have hext := ht.update_ext h₄.builds.typed .data
  have hk := h₄.taken hr ht (u := .data) (by simp) (by simp)
  have hg : IsNewData Γ₀ (Function.update Γ₃ s₄.kmalloc.1 .data) s₄.kmalloc.1 :=
    ⟨Function.update_self .., h₄.builds.new (ht.unowned h₄.builds.typed)⟩
  obtain ⟨h₅, h₅'⟩ := pushArgs_populates hk hr (hf₃.ext hext) hg (l := args.reverse) (j := 0)
    (m := pointers.2 - 8) (by simpa using hargs) (by rw [List.length_reverse]; omega)
    (by rw [hE.2, List.length_reverse]; omega) (by rw [hE.2]; omega)
  rw [← hpushed] at h₅ h₅'
  obtain ⟨Γ₆, h₆, hext₆, -, -⟩ := h₅.map hr hW hS (hv 0x301000 (by decide)) hg hx₅
  refine ⟨Γ₆, h₆.edit hr ((hf₃.ext hext).ext hext₆) (store64_edits _ ?_ ?_)⟩
  · rw [h₅', hE.2, List.length_reverse]
    omega
  · rw [h₅', hE.2, List.length_reverse]
    omega

end Sbunix
