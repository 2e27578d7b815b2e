import Sbunix.KernelHalf

/-!
# The frames that the loader writes to

`map_elf_file` takes pages for the record of the segment, for its file part and for tables, and
writes to these. Behind the file part it clears `p_memsz - p_filesz` bytes, for which it takes no
pages, and it begins `p_filesz` bytes behind the end of the copy. In the last page of the file part
there is room for that only if the segment is small; otherwise the frames that follow are cleared,
whoever uses them.

`Owning` is what holds while a file is loaded: what has no use has not changed.

* `loadFile_ownFrames` — loading changes nothing but frames that it takes and tables of the tree, if
  clearing the tails stays in the last pages;
* `not_ownFrames` — a file that clears a page in use.
-/

namespace Sbunix

open ByteMem Placement

variable {s₀ s s' : Phys} {Γ₀ Γ : Nat → Use} {r : Nat}

/-- Frame `n` has been taken from the allocator. -/
def Obtained (s s' : Phys) (n : Nat) : Prop :=
  n < maxFrames ∧ IsFree s.availFrames n ∧ ¬ IsFree s'.availFrames n

/-- **Only frames of its own**: a byte that has changed lies in a frame that has been taken, or in
a table of the tree, and a task record that has changed lies in a frame that has been taken. -/
structure OwnFramesOnly (s s' : Phys) (pml4 : Nat) : Prop where
  memory : ∀ x, s'.mem x ≠ s.mem x →
    Obtained s s' (x / 4096) ∨ InTree s pml4 (x / 4096 * 4096)
  tasks : ∀ f, f % 4096 = 0 → s'.tasks (kernbase + f) ≠ s.tasks (kernbase + f) →
    Obtained s s' (f / 4096)

/-- **The memory a file is loaded into**: a tree, and an archive in use outside it. -/
structure FileSpace (s : Phys) (elf size pml4 : Nat) : Prop where
  tree : WellFormed s pml4
  archive : ∀ x, elf ≤ x → x < elf + max size 64 → x / 4096 < maxFrames ∧
    ¬ IsFree s.availFrames (x / 4096) ∧ ¬ InTree s pml4 (x / 4096 * 4096)

/-- **While a file is loaded**, pages without a use have not changed. -/
structure Owning (s₀ : Phys) (Γ₀ : Nat → Use) (r : Nat) (s : Phys) (Γ : Nat → Use) : Prop where
  builds : Builds (Shape.single r) (· = r) s₀ Γ₀ s Γ
  memory : ∀ x, Γ (x / 4096 * 4096) = .unowned → s.mem x = s₀.mem x
  tasks : ∀ f, f % 4096 = 0 → Γ f = .unowned → s.tasks (kernbase + f) = s₀.tasks (kernbase + f)

/-- **The loader keeps it**, with every page that it takes, fills or maps. -/
theorem owning_steps : LoadSteps s₀ Γ₀ r fun _ s Γ => Owning s₀ Γ₀ r s Γ where
  builds h := h.builds
  mono h _ := h
  taken := by
    rintro - s s' Γ f u h ht hu hu'
    have hal := ht.aligned
    have hother : ∀ g, Function.update Γ f u g = .unowned → g ≠ f ∧ Γ g = .unowned := by
      intro g hg
      by_cases hgf : g = f
      · subst hgf
        rw [Function.update_self] at hg
        exact absurd hg hu'
      · rw [Function.update_of_ne hgf] at hg
        exact ⟨hgf, hg⟩
    refine ⟨h.builds.taken ht hu hu', fun x hx => ?_, fun g hg hgu => ?_⟩
    · obtain ⟨hne, hx⟩ := hother _ hx
      rw [ht.mem x (by omega), h.memory x hx]
    · obtain ⟨hne, hgu⟩ := hother g hgu
      rw [ht.tasks g hne, h.tasks g hg hgu]
  edit := by
    rintro - s s' Γ f h hf he
    have hne : Γ f ≠ .unowned := by rw [hf.1]; simp
    have hal := (h.builds.typed.owned f hne).1
    refine ⟨h.builds.edits he hf.2 hne (by rw [hf.1]; simp), fun x hx => ?_, fun g hg hgu => ?_⟩
    · have hpage : x / 4096 * 4096 ≠ f := by
        rintro rfl
        exact hne hx
      rw [he.mem x (by omega), h.memory x hx]
    · rw [he.tasks g (by rintro rfl; exact hne hgu), h.tasks g hg hgu]
  map := by
    rintro - s Γ f v h hf hx
    obtain ⟨Γ', ht, -, -⟩ := mapPageForUser_spec h.builds.typed rfl (single_accepts r)
      (pml4Index_lt v) hf.1 hx
    -- what has no use afterwards had none before, and is still free if it was free
    have hold : ∀ g, Γ' g = .unowned → Γ g = .unowned := by
      intro g hg
      by_contra hne
      exact hne ((ht.ext g hne).symm.trans hg)
    refine ⟨Γ', ⟨h.builds.touches ht rfl, fun x hu => ?_, fun g hg hu => ?_⟩, ht.ext⟩
    · rw [ht.mem x (fun hfree => (ht.free _).mpr ⟨hfree, hu⟩) ?_, h.memory x (hold _ hu)]
      rw [hold _ hu]
      simp
    · have hdiv : g / 4096 * 4096 = g := by omega
      rw [ht.tasks g hg fun hfree => (ht.free _).mpr ⟨hfree, by rwa [hdiv]⟩,
        h.tasks g hg (hold g hu)]

/-- **Loading a file writes to frames of its own only.** Clearing the tail of a segment stays in its
last page, the program headers do not wrap around, and memory does not run out. -/
theorem loadFile_ownFrames (l : Loader) (elf size pml4 : Nat)
    (hm : FileSpace l.phys elf size pml4)
    (hheads : ePhoff l.phys.mem elf + ePhnum l.phys.mem elf * 56 < 2 ^ 64)
    (htail : ∀ hdr ∈ fileSegments l.phys.mem elf size, hdr.TailFits)
    (hx : (loadFile l (some (elf, size)) pml4).2.phys.exhausted = false) :
    OwnFramesOnly l.phys (loadFile l (some (elf, size)) pml4).2.phys pml4 := by
  obtain ⟨Γ, hT, hmin⟩ := hm.tree.exists_typed
  have hstart : Owning l.phys (settle l.phys Γ) pml4 l.phys (settle l.phys Γ) :=
    ⟨.refl hT.settle, fun _ _ => rfl, fun _ _ _ => rfl⟩
  obtain ⟨Γ', hL⟩ := owning_steps.loadFile hstart (settled_archive hmin hm.archive) hheads htail hx
  -- a page that has found a use was free, and is not any more
  have hobtained : ∀ f, settle l.phys Γ f = .unowned → Γ' f ≠ .unowned →
      Obtained l.phys (loadFile l (some (elf, size)) pml4).2.phys (f / 4096) := by
    intro f hf hf'
    obtain ⟨-, hlt, hused⟩ := hL.builds.typed.owned f hf'
    exact ⟨hlt, (hL.builds.fresh f hf hf').1, hused⟩
  refine ⟨fun x hne => ?_, fun f hal hne => ?_⟩
  · by_cases htree : InTree l.phys pml4 (x / 4096 * 4096)
    · exact .inr htree
    have hdiv : x / 4096 * 4096 / 4096 = x / 4096 := Nat.mul_div_cancel _ (by decide)
    have hΓ : Γ (x / 4096 * 4096) = .unowned := by
      by_contra hu
      exact htree (hmin _ hu)
    by_cases hu : settle l.phys Γ (x / 4096 * 4096) = .unowned
    · left
      rw [← hdiv]
      exact hobtained _ hu fun hu' => hne (hL.memory x hu')
    · -- a page in use that is no table of the tree
      have hkernel : ∀ p, settle l.phys Γ (x / 4096 * 4096) ≠ .table pml4 p := by
        intro p hp
        unfold settle at hp
        split at hp
        · cases hp
        · rw [hΓ] at hp
          cases hp
      refine absurd (hL.builds.mem _ hu ?_ x (by omega) (by omega)) hne
      rintro _ p rfl
      exact hkernel p
  · by_cases hu : settle l.phys Γ f = .unowned
    · exact hobtained f hu fun hu' => hne (hL.tasks f hal hu')
    · exact absurd (hL.builds.tasks f hu) hne

/-- A file of 120 bytes whose only segment is the whole file. -/
theorem loadFile_ownFrames_whole : OwnFramesOnly (sampleLoader 0 120).phys
    (loadFile (sampleLoader 0 120) (some (0x2000, 120)) 0x1000).2.phys 0x1000 := by
  have hsegs : fileSegments (sampleLoader 0 120).phys.mem 0x2000 120 =
      [⟨1, 5, 0, 0x400000, 120, 120⟩] := by decide +kernel
  refine loadFile_ownFrames (sampleLoader 0 120) 0x2000 120 0x1000
    ⟨(sampleLoader_space 0 120).tree, (sampleLoader_space 0 120).archive⟩ (by decide +kernel)
    (fun hdr hh => ?_) (by decide +kernel)
  rw [hsegs, List.mem_singleton] at hh
  rw [hh]
  exact .inl rfl

/-! ### A page in use is cleared -/

/-- A file of 120 bytes that asks for a page of memory. -/
def tailElf : List UInt8 := ((sampleElf 0 120).set 104 0).set 105 0x10

/-- The file at `0x2000`, and a page in use at `0xA000`; frames 8, 9 and 12 to 15 are free. -/
def tailLoader : Loader where
  phys :=
    { mem := fun x =>
        if x = 0xA000 then 7 else if 0x2000 ≤ x then tailElf.getD (x - 0x2000) 0 else 0
      availFrames := fun row => if row = 0 then 0xF300#64 else 0#64
      exhausted := false
      tasks := fun _ => Task.zeroed }
  mmap := []
  pageNum := 0

theorem tailLoader_space : FileSpace tailLoader.phys 0x2000 120 0x1000 := by
  have hz : ∀ x, 0x1000 ≤ x → x < 0x1000 + 4096 → tailLoader.phys.mem x = 0 := by
    intro x _ hx
    have h1 : ¬ x = 0xA000 := by omega
    have h2 : ¬ 0x2000 ≤ x := by omega
    simp only [tailLoader, if_neg h1, if_neg h2]
  have hentry : ∀ i < 512, entry tailLoader.phys.mem 0x1000 i = 0 := fun i hi =>
    read64_eq_zero fun x hx hx' => hz x (by omega) (by omega)
  refine ⟨wellFormed_of_clear hz ⟨by decide, by decide, ?_⟩, fun x hx hx' => ?_⟩
  · simp only [tailLoader, IsFree]
    decide
  · have hdiv : x / 4096 = 2 := by omega
    rw [hdiv]
    refine ⟨by decide, by simp only [tailLoader, IsFree]; decide, ?_⟩
    rintro ⟨q, hq, hw⟩
    cases q with
    | nil => simp at hw
    | cons i q =>
      rw [walk, child_eq_none.mpr (by rw [hentry i (hq.2 i (by simp))])] at hw
      cases hw

/-- **A page in use is cleared.** The segment has 120 bytes in the file and 4096 in memory; they are
copied to frame 9, and clearing the rest of them reaches frame 10. -/
theorem not_ownFrames : FileSpace tailLoader.phys 0x2000 120 0x1000 ∧
    (loadFile tailLoader (some (0x2000, 120)) 0x1000).1 ≠ 0 ∧
    (loadFile tailLoader (some (0x2000, 120)) 0x1000).2.phys.exhausted = false ∧
    ¬ OwnFramesOnly tailLoader.phys (loadFile tailLoader (some (0x2000, 120)) 0x1000).2.phys
      0x1000 := by
  have hret : (loadFile tailLoader (some (0x2000, 120)) 0x1000).1 ≠ 0 :=
    loadFile_ne_zero (by decide +kernel) (by decide +kernel) (by decide +kernel)
      (by decide +kernel)
  have hlive : (loadFile tailLoader (some (0x2000, 120)) 0x1000).2.phys.exhausted = false := by
    decide +kernel
  have hcleared : (loadFile tailLoader (some (0x2000, 120)) 0x1000).2.phys.mem 0xA000 = 0 := by
    decide +kernel
  have hbefore : tailLoader.phys.mem 0xA000 = 7 := by decide +kernel
  refine ⟨tailLoader_space, hret, hlive, fun h => ?_⟩
  generalize (loadFile tailLoader (some (0x2000, 120)) 0x1000).2.phys = s' at h hcleared
  rcases h.memory 0xA000 (by rw [hcleared, hbefore]; decide) with ⟨-, hfree, -⟩ | htree
  · refine absurd hfree ?_
    simp only [tailLoader, IsFree]
    decide
  · -- the root is the only table
    obtain ⟨q, hq, hw⟩ := htree
    cases q with
    | nil => exact absurd (Option.some.inj hw) (by decide)
    | cons i q =>
      have hlt := hq.2 i (by simp)
      have hzero : entry tailLoader.phys.mem 0x1000 i = 0 := by
        refine read64_eq_zero fun x hlo hhi => ?_
        have h1 : ¬ x = 0xA000 := by omega
        have h2 : ¬ 0x2000 ≤ x := by omega
        simp only [tailLoader, if_neg h1, if_neg h2]
      rw [walk, child_eq_none.mpr (by rw [hzero])] at hw
      cases hw

end Sbunix
