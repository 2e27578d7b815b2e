import Mathlib.Order.Interval.Finset.Nat
import Sbunix.AddressSpace
import Sbunix.MapLaw
import Sbunix.MemoryMap

/-!
# The kernel's view of physical memory

`mapKernelMemory` and `identityMapping` of `sys/virtualMemory.c`, run before paging is switched
on: four tables for the kernel image are linked by hand, then every page from `PHYSSTART` up to
and including the one of `PHYSEND` is mapped at `kernbase` plus its address. The page tables are
taken from the allocator while the loop runs, lowest frame first.

`PHYSEND` is the end of the region that `initBitmap` saw last. A frame that was freed for an
earlier region and lies behind that end is free and not mapped, so that `kmalloc` would return
an address without translation for it (`freeFramesMapped_iff`).

* `Draws` is what any sequence of allocations leaves: the upper part of the frames there were;
* `KernelTree` is the loop invariant of `identityMapping`.
-/

namespace Sbunix

open ByteMem Placement

/-- `&kernmem` of `linker.script`; `&physbase` is `0x200000`. -/
def kernmem : Nat := 0xFFFFFFFF80200000

/-- `PHYSSTART`. -/
def physStart : Nat := 0x100000

namespace Phys

/-- `mapPage`: no entry gets the user bit. -/
def mapPage (s : Phys) (vAddr phyAddr pml4 : Nat) : Phys :=
  s.mapWith 0 vAddr phyAddr pml4

/-- The tables `mapKernelMemory` begins with: a PML4, a PDPT, a PDT and a page table, each taken
from `pageAllocator` and cleared, then linked from the top down. -/
def linkKernelTables (s : Phys) : Nat × Phys :=
  let pml4 := s.kmalloc
  let pdpt := pml4.2.kmalloc
  let pdt := pdpt.2.kmalloc
  let pt := pdt.2.kmalloc
  (pml4.1,
    ((pt.2.store64 (pml4.1 + 8 * pml4Index kernmem) (pdpt.1 ||| present ||| writeable)).store64
      (pdpt.1 + 8 * pdptIndex kernmem) (pdt.1 ||| present ||| writeable)).store64
      (pdt.1 + 8 * pdtIndex kernmem) (pt.1 ||| present ||| writeable))

/-- The loop of `identityMapping`, on 64-bit addresses; `none` when `fuel` runs are not enough. -/
def identityLoop (pml4 virEnd : Nat) : Nat → Phys → Nat → Nat → Option Phys
  | 0, _, _, _ => none
  | fuel + 1, s, virStart, phys =>
    if virStart ≤ virEnd then
      identityLoop pml4 virEnd fuel (s.mapPage virStart phys pml4)
        ((virStart + 0x1000) % 2 ^ 64) ((phys + 0x1000) % 2 ^ 64)
    else some s

/-- `vir_end`: nothing above the last page of the 64-bit space is mapped. -/
def virEnd (physend : Nat) : Nat :=
  let endOfMemory := 0xFFFFFFFFFFFFF000 - kernbase
  if physend > endOfMemory then 0xFFFFFFFF90000000 else kernbase + physend

def identityMapping (s : Phys) (physend pml4 fuel : Nat) : Option Phys :=
  identityLoop pml4 (virEnd physend) fuel s (kernbase + physStart) physStart

/-- `mapKernelMemory` up to the return of `identityMapping`, with the address of the PML4. -/
def mapKernelMemory (s : Phys) (physend fuel : Nat) : Option (Nat × Phys) :=
  let k := s.linkKernelTables
  (k.2.identityMapping physend k.1 fuel).map fun t => (k.1, t)

end Phys

/-- **What the kernel relies on**: the address `kmalloc` computes from a page of `pageAllocator`
is translated back to that page. -/
def FreeFramesMapped (s : Phys) (pml4 : Nat) : Prop :=
  ∀ m < maxFrames, IsFree s.availFrames m →
    s.translate (kernbase + m * 0x1000) pml4 = some (m * 0x1000)

/-! ### Allocation takes the lowest frames -/

/-- **What allocations leave.** The free frames are an upper part of those of `a`, and once an
allocation has failed there are none. -/
structure Draws (a : Bitmap) (s : Phys) : Prop where
  sub : ∀ n, IsFree s.availFrames n → IsFree a n
  upper : ∀ m n, IsFree s.availFrames m → m ≤ n → IsFree a n → IsFree s.availFrames n
  dry : s.exhausted = true → ∀ n < maxFrames, ¬ IsFree s.availFrames n

variable {a : Bitmap} {s t : Phys}

theorem Draws.refl (hx : s.exhausted = false) : Draws s.availFrames s where
  sub _ h := h
  upper _ _ _ _ h := h
  dry h := by rw [hx] at h; cases h

theorem Draws.congr (h : Draws a s) (ha : t.availFrames = s.availFrames)
    (hx : t.exhausted = s.exhausted) : Draws a t := by
  obtain ⟨h₁, h₂, h₃⟩ := h
  exact ⟨by rwa [ha], by rwa [ha], by rwa [ha, hx]⟩

theorem Draws.pageAllocator (h : Draws a s) : Draws a s.pageAllocator.2 := by
  have hb : s.pageAllocator.2.availFrames = (Sbunix.pageAllocator s.availFrames).2 := by
    simp only [Phys.pageAllocator]
  rcases pageAllocator_cases s.availFrames with ⟨hnone, heq⟩ | ⟨f, hlt, hfree, hmin, heq⟩
  · rw [heq] at hb
    exact ⟨by rw [hb]; exact h.sub, by rw [hb]; exact h.upper, fun _ => by rwa [hb]⟩
  · rw [heq] at hb
    refine ⟨fun n hn => ?_, fun m n hm hmn hn => ?_, fun hx => ?_⟩
    · rw [hb, isFree_markasUsed] at hn
      exact h.sub n hn.2
    · -- a frame that is left lies above the one taken
      rw [hb, isFree_markasUsed] at hm ⊢
      have hfm : f ≤ m := by
        by_contra hc
        exact hmin m (by omega) hm.2
      exact ⟨by omega, h.upper m n hm.2 hmn hn⟩
    · -- with a frame to take the allocation has not failed
      have hsome : (getFirstFrame s.availFrames).isNone = false := by
        rw [getFirstFrame_eq_some_iff.mpr ⟨hlt, hfree, hmin⟩]
        rfl
      simp only [Phys.pageAllocator, hsome, Bool.or_false] at hx
      exact absurd hfree (h.dry hx f hlt)

theorem Draws.kmalloc (h : Draws a s) : Draws a s.kmalloc.2 :=
  h.pageAllocator.congr (by simp only [Phys.kmalloc, Phys.memset_availFrames])
    (by simp only [Phys.kmalloc, Phys.memset_exhausted])

theorem Draws.store64 (h : Draws a s) (x v : Nat) : Draws a (s.store64 x v) :=
  h.congr (Phys.store64_availFrames ..) (Phys.store64_exhausted ..)

theorem Draws.nextTable (h : Draws a s) (table i flag : Nat) :
    Draws a (s.nextTable table i flag).2 := by
  simp only [Phys.nextTable]
  split
  · exact h
  · exact h.kmalloc.store64 _ _

theorem Draws.mapPage (h : Draws a s) (v p pml4 : Nat) : Draws a (s.mapPage v p pml4) := by
  simp only [Phys.mapPage, Phys.mapWith]
  exact (((h.nextTable _ _ _).nextTable _ _ _).nextTable _ _ _).store64 _ _

theorem Draws.linkKernelTables (h : Draws a s) : Draws a s.linkKernelTables.2 := by
  simp only [Phys.linkKernelTables]
  exact ((h.kmalloc.kmalloc.kmalloc.kmalloc.store64 _ _).store64 _ _).store64 _ _

/-! ### The loop, page by page -/

/-- Map `n` pages from the one with number `j` on. -/
def Phys.mapPages (pml4 : Nat) : Nat → Phys → Nat → Phys
  | 0, s, _ => s
  | n + 1, s, j => mapPages pml4 n (s.mapPage (kernbase + j * 0x1000) (j * 0x1000) pml4) (j + 1)

theorem Draws.mapPages (h : Draws a s) (pml4 n j : Nat) : Draws a (s.mapPages pml4 n j) := by
  induction n generalizing s j with
  | zero => exact h
  | succ n ih => exact ih (h.mapPage _ _ _) (j + 1)

/-- The loop maps the pages up to the one of `physend` and stops. -/
theorem identityLoop_eq (pml4 physend : Nat) (hend : physend < 0x7FFFF000) (n : Nat) :
    ∀ (fuel j : Nat) (s : Phys), n < fuel → j + n = max j (physend / 0x1000 + 1) →
      Phys.identityLoop pml4 (kernbase + physend) fuel s (kernbase + j * 0x1000) (j * 0x1000) =
        some (s.mapPages pml4 n j) := by
  induction n with
  | zero =>
    intro fuel j s hf hj
    obtain ⟨fuel, rfl⟩ : ∃ m, fuel = m + 1 := ⟨fuel - 1, by omega⟩
    have hgt : ¬ kernbase + j * 0x1000 ≤ kernbase + physend := by omega
    rw [Phys.identityLoop, if_neg hgt]
    rfl
  | succ n ih =>
    intro fuel j s hf hj
    obtain ⟨fuel, rfl⟩ : ∃ m, fuel = m + 1 := ⟨fuel - 1, by omega⟩
    have hle : kernbase + j * 0x1000 ≤ kernbase + physend := by omega
    have hv : (kernbase + j * 0x1000 + 0x1000) % 2 ^ 64 = kernbase + (j + 1) * 0x1000 := by
      simp only [kernbase]
      omega
    have hp : (j * 0x1000 + 0x1000) % 2 ^ 64 = (j + 1) * 0x1000 := by omega
    rw [Phys.identityLoop, if_pos hle, hv, hp, ih fuel (j + 1) _ (by omega) (by omega)]
    rfl

/-- **`identityMapping` returns**, and has mapped the pages from `PHYSSTART` to `physend`. -/
theorem identityMapping_eq (s : Phys) {physend : Nat} (pml4 : Nat) {fuel : Nat}
    (hend : physend < 0x10000000) (hfuel : 0x10000 ≤ fuel) :
    s.identityMapping physend pml4 fuel =
      some (s.mapPages pml4 (physend / 0x1000 + 1 - 256) 256) := by
  have hv : Phys.virEnd physend = kernbase + physend := by
    simp only [Phys.virEnd, kernbase]
    exact if_neg (by omega)
  rw [Phys.identityMapping, hv]
  exact identityLoop_eq pml4 physend (by omega) _ fuel 256 s (by omega) (by omega)

/-! ### The first four tables -/

/-- Pages that have been taken from the frames of `a` and cleared. -/
structure Cleared (a : Bitmap) (s : Phys) (pages : List Nat) : Prop where
  nodup : pages.Nodup
  page : ∀ f ∈ pages, f % 4096 = 0 ∧ f / 4096 < maxFrames ∧ ¬ IsFree s.availFrames (f / 4096)
  zero : ∀ f ∈ pages, ∀ i < 512, entry s.mem f i = 0
  count : (freeFrames s.availFrames).card + pages.length = (freeFrames a).card

theorem Cleared.kmalloc {pages : List Nat} (h : Cleared a s pages)
    (hx : s.kmalloc.2.exhausted = false) : Cleared a s.kmalloc.2 (s.kmalloc.1 :: pages) := by
  obtain ⟨f, t, hft⟩ : ∃ f t, s.pageAllocator = (f, t) := ⟨_, _, rfl⟩
  have hk : s.kmalloc = (f, t.memset f) := by simp only [Phys.kmalloc, hft]
  rw [hk] at hx ⊢
  dsimp only at hx ⊢
  have halloc := Phys.pageAllocator_spec (s := s) (by rw [hft]; simpa using hx)
  have htmem : t.mem = s.mem := by
    have := s.pageAllocator_mem
    rwa [hft] at this
  rw [hft] at halloc
  obtain ⟨-, hal, hlt, hfree, hbits⟩ := halloc
  dsimp only at hal hlt hfree hbits
  -- the pages taken before are not free any more
  have hnew : f ∉ pages := fun hf => (h.page f hf).2.2 hfree
  refine ⟨List.nodup_cons.mpr ⟨hnew, h.nodup⟩, fun g hg => ?_, fun g hg i hi => ?_, ?_⟩
  · rw [Phys.memset_availFrames, hbits]
    rcases List.mem_cons.mp hg with rfl | hg
    · exact ⟨hal, hlt, fun hc => hc.1 rfl⟩
    · obtain ⟨h₁, h₂, h₃⟩ := h.page g hg
      exact ⟨h₁, h₂, fun hc => h₃ hc.2⟩
  · rcases List.mem_cons.mp hg with rfl | hg
    · exact Phys.entry_memset t hi
    · -- another page keeps its bytes
      have hne : g ≠ f := fun hgf => hnew (hgf ▸ hg)
      have hgal := (h.page g hg).1
      rw [← h.zero g hg i hi]
      refine (entry_congr hi fun x hx₁ hx₂ => ?_).trans (congrArg (entry · g i) htmem)
      rw [Phys.memset_mem, if_neg (by omega)]
  · -- one free frame less
    have herase : freeFrames t.availFrames = (freeFrames s.availFrames).erase (f / 4096) := by
      ext n
      rw [Finset.mem_erase, mem_freeFrames, mem_freeFrames, hbits]
      tauto
    have hmem : f / 4096 ∈ freeFrames s.availFrames := mem_freeFrames.mpr ⟨hlt, hfree⟩
    have hpos := Finset.card_pos.mpr ⟨_, hmem⟩
    have hcount := h.count
    rw [Phys.memset_availFrames, herase, Finset.card_erase_of_mem hmem, List.length_cons]
    omega

/-- The slot of an empty table that is stored into is the only one with a child. -/
theorem child_store {f g k i : Nat} (hz : ∀ i < 512, entry s.mem f i = 0) (hf : f % 4096 = 0)
    (hg : g % 4096 = 0 ∧ g / 4096 < maxFrames) (hk : k < 512) (hi : i < 512) :
    child (s.store64 (f + 8 * k) (g ||| present ||| writeable)).mem f i =
      if i = k then some g else none := by
  have hor : g ||| present ||| writeable = g + (3 ||| 0) := by
    rw [← or_flags hg.1 (by decide), Nat.or_zero]
  have hlt := @entry_word_lt g 0 hg.2 (by decide)
  rw [hor]
  split
  · next hik =>
    obtain ⟨hodd, hframe⟩ := @entry_word g 0 hg.1 (by decide)
    rw [hik, child, entry_store_self _ _ _ hlt, and_present, and_frame hlt, hodd, hframe,
      if_pos (by decide)]
  · next hik =>
    rw [child_eq_none, entry_store_other _ hf hf hk hi (by simpa using hik), hz i hi]

/-- A store into one page leaves the entries of another page alone. -/
theorem entry_store_page {f g k i v : Nat} (hf : f % 4096 = 0) (hg : g % 4096 = 0) (hne : g ≠ f)
    (hk : k < 512) (hi : i < 512) : entry (s.store64 (f + 8 * k) v).mem g i = entry s.mem g i :=
  entry_store_other s hf hg hk hi fun h => hne (Prod.mk.inj h).1

theorem child_store_other {f g k i v : Nat} (hf : f % 4096 = 0) (hg : g % 4096 = 0) (hne : g ≠ f)
    (hk : k < 512) (hi : i < 512) : child (s.store64 (f + 8 * k) v).mem g i = child s.mem g i := by
  rw [child, child, entry_store_page hf hg hne hk hi]

/-- **The tables of the kernel image**: one path of four tables and nothing beside it. -/
structure Linked (s : Phys) (pml4 pdpt pdt pt : Nat) : Prop where
  nodup : [pt, pdt, pdpt, pml4].Nodup
  page : ∀ f ∈ [pt, pdt, pdpt, pml4],
    f % 4096 = 0 ∧ f / 4096 < maxFrames ∧ ¬ IsFree s.availFrames (f / 4096)
  root : ∀ i < 512, child s.mem pml4 i = if i = 511 then some pdpt else none
  mid : ∀ i < 512, child s.mem pdpt i = if i = 510 then some pdt else none
  low : ∀ i < 512, child s.mem pdt i = if i = 1 then some pt else none
  empty : ∀ i < 512, entry s.mem pt i = 0

theorem linkKernelTables_spec (hx : s.linkKernelTables.2.exhausted = false) :
    ∃ pdpt pdt pt, Linked s.linkKernelTables.2 s.linkKernelTables.1 pdpt pdt pt ∧
      (freeFrames s.linkKernelTables.2.availFrames).card + 4 = (freeFrames s.availFrames).card := by
  have hidx : pml4Index kernmem = 511 ∧ pdptIndex kernmem = 510 ∧ pdtIndex kernmem = 1 := by
    decide
  obtain ⟨h₁, h₂, h₃⟩ := hidx
  simp only [Phys.linkKernelTables, h₁, h₂, h₃, Phys.store64_exhausted,
    Phys.store64_availFrames] at hx ⊢
  have hx₃ := kmalloc_alive hx
  have hx₂ := kmalloc_alive hx₃
  have hx₁ := kmalloc_alive hx₂
  have hnil : Cleared s.availFrames s [] := ⟨List.nodup_nil, by simp, by simp, Nat.add_zero _⟩
  -- four pages are taken, all different and cleared
  have hc := (((hnil.kmalloc hx₁).kmalloc hx₂).kmalloc hx₃).kmalloc hx
  generalize s.kmalloc.2.kmalloc.2.kmalloc.2.kmalloc.2 = u at hc
  generalize s.kmalloc.2.kmalloc.2.kmalloc.2.kmalloc.1 = pt at hc
  generalize s.kmalloc.2.kmalloc.2.kmalloc.1 = pdt at hc
  generalize s.kmalloc.2.kmalloc.1 = pdpt at hc
  generalize s.kmalloc.1 = pml4 at hc
  have hnodup := hc.nodup
  simp only [List.nodup_cons, List.mem_cons, List.not_mem_nil, or_false, not_or, not_false_eq_true,
    List.nodup_nil, and_true] at hnodup
  obtain ⟨⟨hpt₁, hpt₂, hpt₃⟩, ⟨hpdt₁, hpdt₂⟩, hpdpt⟩ := hnodup
  obtain ⟨pageT, zeroT⟩ : _ ∧ _ := ⟨hc.page pt (by simp), hc.zero pt (by simp)⟩
  obtain ⟨pageD, zeroD⟩ : _ ∧ _ := ⟨hc.page pdt (by simp), hc.zero pdt (by simp)⟩
  obtain ⟨pageP, zeroP⟩ : _ ∧ _ := ⟨hc.page pdpt (by simp), hc.zero pdpt (by simp)⟩
  obtain ⟨pageR, zeroR⟩ : _ ∧ _ := ⟨hc.page pml4 (by simp), hc.zero pml4 (by simp)⟩
  -- three stores link them; each leaves the other pages alone
  refine ⟨pdpt, pdt, pt, ⟨hc.nodup, ?_, fun i hi => ?_, fun i hi => ?_, fun i hi => ?_,
    fun i hi => ?_⟩, hc.count⟩
  · simpa only [Phys.store64_availFrames] using hc.page
  · rw [child_store_other pageD.1 pageR.1 (Ne.symm hpdt₂) (by decide) hi,
      child_store_other pageP.1 pageR.1 (Ne.symm hpdpt) (by decide) hi]
    exact child_store zeroR pageR.1 ⟨pageP.1, pageP.2.1⟩ (by decide) hi
  · rw [child_store_other pageD.1 pageP.1 (Ne.symm hpdt₁) (by decide) hi]
    refine child_store (fun j hj => ?_) pageP.1 ⟨pageD.1, pageD.2.1⟩ (by decide) hi
    rw [entry_store_page pageR.1 pageP.1 hpdpt (by decide) hj, zeroP j hj]
  · refine child_store (fun j hj => ?_) pageD.1 ⟨pageT.1, pageT.2.1⟩ (by decide) hi
    rw [entry_store_page pageP.1 pageD.1 hpdt₁ (by decide) hj,
      entry_store_page pageR.1 pageD.1 hpdt₂ (by decide) hj, zeroD j hj]
  · rw [entry_store_page pageD.1 pageT.1 hpt₁ (by decide) hi,
      entry_store_page pageP.1 pageT.1 hpt₂ (by decide) hi,
      entry_store_page pageR.1 pageT.1 hpt₃ (by decide) hi, zeroT i hi]

/-! ### The loop invariant -/

/-- What the first four tables are used for. -/
def kernelUse (pml4 pdpt pdt pt f : Nat) : Use :=
  if f = pml4 then .table pml4 []
  else if f = pdpt then .table pml4 [511]
  else if f = pdt then .table pml4 [511, 510]
  else if f = pt then .table pml4 [511, 510, 1]
  else .unowned

/-- The four tables and their paths. -/
theorem kernelUse_cases {pml4 pdpt pdt pt f r : Nat} {p : List Nat}
    (h : kernelUse pml4 pdpt pdt pt f = .table r p) :
    r = pml4 ∧ (f = pml4 ∧ p = [] ∨ f = pdpt ∧ p = [511] ∨ f = pdt ∧ p = [511, 510] ∨
      f = pt ∧ p = [511, 510, 1]) := by
  unfold kernelUse at h
  split at h
  · next hf => simp_all
  · split at h
    · next hf => simp_all
    · split at h
      · next hf => simp_all
      · split at h
        · next hf => simp_all
        · cases h

variable {pml4 pdpt pdt pt : Nat}

theorem Linked.typed (h : Linked s pml4 pdpt pdt pt) :
    Typed (Shape.single pml4) s (kernelUse pml4 pdpt pdt pt) := by
  have hnodup := h.nodup
  simp only [List.nodup_cons, List.mem_cons, List.not_mem_nil, or_false, not_or, not_false_eq_true,
    List.nodup_nil, and_true] at hnodup
  obtain ⟨⟨hpt₁, hpt₂, hpt₃⟩, ⟨hpdt₁, hpdt₂⟩, hpdpt⟩ := hnodup
  refine ⟨fun f hf => ?_, fun f r p hf => (kernelUse_cases hf).1, ⟨?_, ?_⟩,
    fun _ _ _ _ _ _ => trivial⟩
  · refine h.page f ?_
    by_contra hc
    simp only [List.mem_cons, List.not_mem_nil, or_false, not_or] at hc
    exact hf (by simp only [kernelUse, hc, if_false])
  · rintro r ⟨rfl, -⟩
    exact place_eq_some.mpr (if_pos rfl)
  · -- every slot with a child leads to the next table of the path
    intro n r p i m hn hd hm
    have hi := hd.slot_lt
    obtain ⟨rfl, ⟨rfl, rfl⟩ | ⟨rfl, rfl⟩ | ⟨rfl, rfl⟩ | ⟨rfl, rfl⟩⟩ :=
      kernelUse_cases (place_eq_some.mp hn)
    · rw [h.root i hi] at hm
      obtain ⟨rfl, rfl⟩ : i = 511 ∧ pdpt = m := by simpa using hm
      exact place_eq_some.mpr (by simp only [kernelUse, if_neg hpdpt, if_true, List.nil_append])
    · rw [h.mid i hi] at hm
      obtain ⟨rfl, rfl⟩ : i = 510 ∧ pdt = m := by simpa using hm
      refine place_eq_some.mpr ?_
      simp only [kernelUse, if_neg hpdt₁, if_neg hpdt₂, if_true, List.cons_append, List.nil_append]
    · rw [h.low i hi] at hm
      obtain ⟨rfl, rfl⟩ : i = 1 ∧ pt = m := by simpa using hm
      refine place_eq_some.mpr ?_
      simp only [kernelUse, if_neg hpt₁, if_neg hpt₂, if_neg hpt₃, if_true, List.cons_append,
        List.nil_append]
    · rw [child_eq_none.mpr (by rw [h.empty i hi])] at hm
      cases hm

/-- The four indices of the page that is mapped `j`-th. -/
theorem kernel_path {k : Nat} (hk : k < maxFrames) :
    path (kernbase + k * 0x1000) = [511, 510, k / 512] ∧
      ptIndex (kernbase + k * 0x1000) = k % 512 := by
  have hk' : k < 65536 := hk
  simp only [path, pml4Index_eq, pdptIndex_eq, pdtIndex_eq, ptIndex_eq, kernbase, List.cons.injEq,
    and_true]
  omega

theorem otherPage_kernel {k j : Nat} (hk : k < maxFrames) (hj : j < maxFrames) (hne : k ≠ j) :
    OtherPage (kernbase + j * 0x1000) (kernbase + k * 0x1000) := by
  have hk' : k < 65536 := hk
  have hj' : j < 65536 := hj
  simp only [OtherPage, kernbase]
  omega

/-- The page tables there are when the loop comes to page `j`: the one of the kernel image and
those of the pages mapped so far. -/
def TableAt (j i : Nat) : Prop := i = 1 ∨ (256 < j ∧ 512 * i < j)

/-- Their number. -/
def pageTables (j : Nat) : Nat := if j ≤ 256 then 1 else max 2 ((j - 1) / 512 + 1)

/-- **The loop invariant of `identityMapping`** in front of page `j`, for a loop that starts in
memory `s₀`. -/
structure KernelTree (s₀ s : Phys) (Γ₀ Γ : Nat → Use) (pml4 j : Nat) : Prop where
  touches : Touches (Shape.single pml4) pml4 s₀ s Γ₀ Γ
  pdt : ∃ pdpt pdt, child s.mem pml4 511 = some pdpt ∧ child s.mem pdpt 510 = some pdt
  tables : ∀ i < 512, TableAt j i → ∃ pt, walk (child s.mem) pml4 [511, 510, i] = some pt
  /-- The pages so far are mapped. -/
  mapped : ∀ k, 256 ≤ k → k < j → s.leaf (kernbase + k * 0x1000) pml4 = some (k * 0x1000 + 3)
  /-- The pages to come have no entry yet. -/
  ahead : ∀ k, j ≤ k → k < maxFrames → ∀ e,
    s.leaf (kernbase + k * 0x1000) pml4 = some e → e = 0

theorem Linked.kernelTree (h : Linked s pml4 pdpt pdt pt) :
    KernelTree s s (kernelUse pml4 pdpt pdt pt) (kernelUse pml4 pdpt pdt pt) pml4 256 := by
  have h₁ : child s.mem pml4 511 = some pdpt := (h.root 511 (by decide)).trans (if_pos rfl)
  have h₂ : child s.mem pdpt 510 = some pdt := (h.mid 510 (by decide)).trans (if_pos rfl)
  have hw : ∀ i < 512, walk (child s.mem) pml4 [511, 510, i] = if i = 1 then some pt else none := by
    intro i hi
    simp only [walk, h₁, h₂, Option.bind_some, h.low i hi]
    split <;> rfl
  refine ⟨.refl h.typed, ⟨pdpt, pdt, h₁, h₂⟩, ?_, fun k hk hk' => by omega, ?_⟩
  · rintro i hi (rfl | ⟨hlt, -⟩)
    · exact ⟨pt, (hw 1 hi).trans (if_pos rfl)⟩
    · omega
  · intro k _ hk e he
    obtain ⟨hpath, -⟩ := kernel_path hk
    have hk' : k < 65536 := hk
    simp only [Phys.leaf, pageTable_eq_walk, hpath, hw (k / 512) (by omega)] at he
    split at he
    · rw [Option.map_some, h.empty _ (ptIndex_lt _)] at he
      exact (Option.some.inj he).symm
    · cases he

theorem mapPage_live {v p : Nat} (h : (s.mapPage v p pml4).exhausted = false) :
    s.exhausted = false :=
  mapWith_alive h

section
variable {s₀ : Phys} {Γ₀ Γ : Nat → Use} {j : Nat}

/-- **One run of the loop.** -/
theorem KernelTree.step (h : KernelTree s₀ s Γ₀ Γ pml4 j) (h256 : 256 ≤ j) (hj : j < maxFrames)
    (hx : (s.mapPage (kernbase + j * 0x1000) (j * 0x1000) pml4).exhausted = false) :
    ∃ Γ', KernelTree s₀ (s.mapPage (kernbase + j * 0x1000) (j * 0x1000) pml4) Γ₀ Γ' pml4
      (j + 1) := by
  have hj' : j < 65536 := hj
  have hS : (Shape.single pml4).Accepts pml4 0 := ⟨by decide, trivial, fun _ _ _ => trivial⟩
  obtain ⟨Γ', ht, hself, hother⟩ := mapWith_spec (v := kernbase + j * 0x1000) (p := j * 0x1000)
    h.touches.typed rfl (pml4Index_lt _) (by omega) (by omega) hx hS
  -- the pages that were mapped before are at other addresses
  have hkept : ∀ k < maxFrames, k ≠ j → LeafKept (s.leaf (kernbase + k * 0x1000) pml4)
      ((s.mapPage (kernbase + j * 0x1000) (j * 0x1000) pml4).leaf (kernbase + k * 0x1000) pml4) :=
    fun k hk hne => hother _ (pml4Index_lt _) (otherPage_kernel hk hj hne)
  have hdom : ∀ i < 512, (Shape.single pml4).Dom pml4 [511, 510, i] := fun i hi =>
    Shape.single_dom.mpr ⟨rfl, by simp, by simpa using hi⟩
  refine ⟨Γ', h.touches.trans ht, ?_, fun i hi hat => ?_, fun k hk hkj => ?_, fun k hk hkm => ?_⟩
  · -- a table that is found on a walk stays where it is
    obtain ⟨pdpt, pdt, h₁, h₂⟩ := h.pdt
    have hw := ht.walks [511, 510] pdt (Shape.single_dom.mpr ⟨rfl, by decide, by decide⟩)
      (by simp only [walk, h₁, h₂, Option.bind_some])
    have hw₁ := ht.walks [511] pdpt (Shape.single_dom.mpr ⟨rfl, by decide, by decide⟩)
      (by simp only [walk, h₁, Option.bind_some])
    rw [show [511, 510] = [511] ++ [510] from rfl, walk_snoc, hw₁, Option.bind_some] at hw
    rw [show [511] = [] ++ [511] from rfl, walk_snoc, walk_nil, Option.bind_some] at hw₁
    exact ⟨pdpt, pdt, hw₁, hw⟩
  · by_cases hold : TableAt j i
    · obtain ⟨pt, hpt⟩ := h.tables i hi hold
      exact ⟨pt, ht.walks _ _ (hdom i hi) hpt⟩
    · -- the only other page table is the one of page `j`
      have hij : i = j / 512 := by
        simp only [TableAt] at hat hold
        omega
      rw [Phys.leaf, pageTable_eq_walk, (kernel_path hj).1, ← hij] at hself
      obtain ⟨pt, hpt, -⟩ := Option.map_eq_some_iff.mp hself
      exact ⟨pt, hpt⟩
  · by_cases hkj' : k = j
    · rw [hkj']
      exact hself
    · have hlt : k < j := by omega
      exact ((hkept k (by omega) hkj').eq_some (by omega)).mpr (h.mapped k hk hlt)
  · intro e he
    rcases hkept k hkm (by omega) with heq | ⟨-, heq⟩
    · exact h.ahead k (by omega) hkm e (heq ▸ he)
    · rw [heq] at he
      exact (Option.some.inj he).symm

/-- One level takes one frame at most. -/
theorem freeFrames_nextTable (s : Phys) (table i flag : Nat) :
    (freeFrames s.availFrames).card ≤
      (freeFrames (s.nextTable table i flag).2.availFrames).card + 1 := by
  simp only [Phys.nextTable]
  split
  · exact Nat.le_succ _
  · simp only [Phys.store64_availFrames, Phys.memset_availFrames, Phys.pageAllocator]
    rcases pageAllocator_cases s.availFrames with ⟨-, heq⟩ | ⟨f, -, -, -, heq⟩
    · rw [heq]
      exact Nat.le_succ _
    · rw [heq, freeFrames_markasUsed]
      have := Finset.pred_card_le_card_erase (s := freeFrames s.availFrames) (a := f)
      omega

/-- In front of page `j` all that can be missing is its page table. -/
theorem KernelTree.missing (h : KernelTree s₀ s Γ₀ Γ pml4 j) (h256 : 256 ≤ j)
    (hj : j < maxFrames) :
    pageTables j + tablesMissing s (kernbase + j * 0x1000) pml4 ≤ pageTables (j + 1) := by
  have hj' : j < 65536 := hj
  obtain ⟨pdpt, pdt, h₁, h₂⟩ := h.pdt
  have hpath := (kernel_path hj).1
  simp only [path, List.cons.injEq, and_true] at hpath
  obtain ⟨i₁, i₂, i₃⟩ := hpath
  by_cases hat : TableAt j (j / 512)
  · obtain ⟨pt, hpt⟩ := h.tables (j / 512) (by omega) hat
    simp only [walk, h₁, h₂, Option.bind_some] at hpt
    have hnone : child s.mem pdt (j / 512) ≠ none := by
      intro hc
      rw [hc] at hpt
      cases hpt
    obtain ⟨c, hc⟩ := Option.ne_none_iff_exists'.mp hnone
    simp only [tablesMissing, i₁, i₂, i₃, h₁, h₂, hc, pageTables]
    split <;> split <;> omega
  · have hone : tablesMissing s (kernbase + j * 0x1000) pml4 ≤ 1 := by
      simp only [tablesMissing, i₁, i₂, i₃, h₁, h₂]
      split <;> omega
    simp only [TableAt] at hat
    refine (Nat.add_le_add_left hone _).trans ?_
    simp only [pageTables]
    split <;> split <;> omega

/-- Mapping a page takes the frames of the missing tables at most. -/
theorem freeFrames_mapPage (s : Phys) (v p pml4 : Nat) :
    (freeFrames s.availFrames).card ≤
      (freeFrames (s.mapPage v p pml4).availFrames).card + tablesMissing s v pml4 := by
  simp only [Phys.mapPage, Phys.mapWith, Phys.store64_availFrames]
  unfold tablesMissing
  cases h₁ : child s.mem pml4 (pml4Index v) with
  | none =>
    dsimp only
    -- all three tables are missing
    have l₁ := freeFrames_nextTable s pml4 (pml4Index v) 0
    generalize s.nextTable pml4 (pml4Index v) 0 = pdpt at l₁
    have l₂ := freeFrames_nextTable pdpt.2 pdpt.1 (pdptIndex v) 0
    generalize pdpt.2.nextTable pdpt.1 (pdptIndex v) 0 = pdt at l₂
    have l₃ := freeFrames_nextTable pdt.2 pdt.1 (pdtIndex v) 0
    omega
  | some pdpt =>
    rw [nextTable_of_child h₁]
    cases h₂ : child s.mem pdpt (pdptIndex v) with
    | none =>
      dsimp only
      rw [h₂]
      dsimp only
      have l₂ := freeFrames_nextTable s pdpt (pdptIndex v) 0
      generalize s.nextTable pdpt (pdptIndex v) 0 = pdt at l₂
      have l₃ := freeFrames_nextTable pdt.2 pdt.1 (pdtIndex v) 0
      omega
    | some pdt =>
      rw [nextTable_of_child h₂]
      dsimp only
      rw [h₂]
      dsimp only
      cases h₃ : child s.mem pdt (pdtIndex v) with
      | none => exact freeFrames_nextTable s pdt (pdtIndex v) 0
      | some pt =>
        rw [nextTable_of_child h₃]
        dsimp only
        omega

theorem mapPages_live {n : Nat} (h : (s.mapPages pml4 n j).exhausted = false) :
    s.exhausted = false := by
  induction n generalizing s j with
  | zero => exact h
  | succ n ih => exact mapPage_live (ih h)

theorem pageTables_mono {j' : Nat} (h : j ≤ j') : pageTables j ≤ pageTables j' := by
  simp only [pageTables]
  split <;> split <;> omega

/-- **The whole loop.** It either succeeds in the end or had enough frames for its tables, and
then every page of it is mapped and no further frame has been taken. -/
theorem KernelTree.mapPages (n : Nat) (h : KernelTree s₀ s Γ₀ Γ pml4 j) (h256 : 256 ≤ j)
    (hn : j + n ≤ maxFrames)
    (hlive : (s.mapPages pml4 n j).exhausted = false ∨ (s.exhausted = false ∧
      pageTables (j + n) ≤ (freeFrames s.availFrames).card + pageTables j)) :
    (s.mapPages pml4 n j).exhausted = false ∧
      (∃ Γ', KernelTree s₀ (s.mapPages pml4 n j) Γ₀ Γ' pml4 (j + n)) ∧
      (freeFrames s.availFrames).card + pageTables j ≤
        (freeFrames (s.mapPages pml4 n j).availFrames).card + pageTables (j + n) := by
  induction n generalizing s Γ j with
  | zero =>
    refine ⟨?_, ⟨Γ, h⟩, le_refl _⟩
    rcases hlive with hlive | ⟨hlive, -⟩ <;> exact hlive
  | succ n ih =>
    have hmiss := h.missing h256 (by omega)
    have htake := freeFrames_mapPage s (kernbase + j * 0x1000) (j * 0x1000) pml4
    have hmono : pageTables (j + 1) ≤ pageTables (j + (n + 1)) := pageTables_mono (by omega)
    -- page `j` is mapped, since the loop does not fail later or there are frames enough
    have hx : (s.mapPage (kernbase + j * 0x1000) (j * 0x1000) pml4).exhausted = false := by
      rcases hlive with hlive | ⟨hlive, hcard⟩
      · exact mapPages_live (n := n) (j := j + 1) hlive
      · exact mapWith_live hlive (by omega)
    obtain ⟨Γ', hstep⟩ := h.step h256 (by omega) hx
    rw [Phys.mapPages, show j + (n + 1) = j + 1 + n by omega] at *
    obtain ⟨hlive', htree, hcount⟩ := ih hstep (by omega) (by omega)
      (hlive.imp id fun ⟨_, hcard⟩ => ⟨hx, by omega⟩)
    exact ⟨hlive', htree, by omega⟩

/-- Every page table of the loop is a frame that was taken for it. -/
theorem KernelTree.count {pdpt pdt pt : Nat}
    (h : KernelTree s₀ s (kernelUse pml4 pdpt pdt pt) Γ pml4 j) (hj : j ≤ maxFrames) :
    (freeFrames s.availFrames).card + pageTables j ≤ (freeFrames s₀.availFrames).card + 1 := by
  have hj' : j ≤ 65536 := hj
  -- the slots that got a table in the loop
  set V := (Finset.range (if j ≤ 256 then 0 else (j - 1) / 512 + 1)).erase 1 with hV
  have hcard : V.card + 1 = pageTables j := by
    simp only [pageTables, hV, Finset.card_erase_eq_ite, Finset.mem_range, Finset.card_range]
    split <;> split <;> omega
  have hat : ∀ i ∈ V, i ≠ 1 ∧ i < 512 ∧ TableAt j i := by
    intro i hi
    obtain ⟨hne, hi⟩ := Finset.mem_erase.mp hi
    rw [Finset.mem_range] at hi
    refine ⟨hne, ?_, Or.inr ?_⟩ <;> split at hi <;> omega
  have hpt : ∀ i ∈ V, ∃ f, walk (child s.mem) pml4 [511, 510, i] = some f ∧
      Γ f = .table pml4 [511, 510, i] ∧ f / 4096 ∈ freeFrames s₀.availFrames ∧
      f / 4096 ∉ freeFrames s.availFrames ∧ f % 4096 = 0 := by
    intro i hi
    obtain ⟨hne, hlt, hat⟩ := hat i hi
    obtain ⟨f, hf⟩ := h.tables i hlt hat
    have hΓ : Γ f = .table pml4 [511, 510, i] :=
      h.touches.typed.walk (Shape.single_dom.mpr ⟨rfl, by simp, by simpa using hlt⟩) hf
    obtain ⟨hal, hmax, hused⟩ := h.touches.typed.owned f (by simp [hΓ])
    -- it is none of the four tables the loop starts with
    have hnew : kernelUse pml4 pdpt pdt pt f = .unowned := by
      by_contra hc
      rw [h.touches.ext f hc] at hΓ
      obtain ⟨-, ⟨-, hp⟩ | ⟨-, hp⟩ | ⟨-, hp⟩ | ⟨-, hp⟩⟩ := kernelUse_cases hΓ <;> simp at hp
      exact hne hp
    have hfree := (h.touches.fresh f hnew (by simp [hΓ])).1
    exact ⟨f, hf, hΓ, mem_freeFrames.mpr ⟨hmax, hfree⟩,
      fun hc => hused (mem_freeFrames.mp hc).2, hal⟩
  have hsub : freeFrames s.availFrames ⊆ freeFrames s₀.availFrames := fun n hn => by
    rw [mem_freeFrames] at hn ⊢
    exact ⟨hn.1, ((h.touches.free n).mp hn.2).1⟩
  have hle : V.card ≤ (freeFrames s₀.availFrames \ freeFrames s.availFrames).card := by
    choose! table htable using hpt
    refine Finset.card_le_card_of_injOn (fun i => table i / 4096) (fun i hi => ?_) ?_
    · obtain ⟨-, -, hf, hf', -⟩ := htable i hi
      exact Finset.mem_sdiff.mpr ⟨hf, hf'⟩
    · intro i hi k hk heq
      obtain ⟨-, hΓ, -, -, hal⟩ := htable i hi
      obtain ⟨-, hΓ', -, -, hal'⟩ := htable k hk
      have : table i = table k := by
        dsimp only at heq
        omega
      rw [this, hΓ'] at hΓ
      simpa using hΓ.symm
  have hsdiff := Finset.card_sdiff_add_card_eq_card hsub
  omega

end

/-! ### Free frames and mapped frames -/

/-- An address that has an entry is translated, one without is not. -/
theorem translate_kernel {s : Phys} {m : Nat}
    (h : s.leaf (kernbase + m * 0x1000) pml4 = some (m * 0x1000 + 3)) :
    s.translate (kernbase + m * 0x1000) pml4 = some (m * 0x1000) := by
  have hoff : (kernbase + m * 0x1000) % 4096 = 0 := by
    simp only [kernbase]
    omega
  rw [translate_eq, h, Option.bind_some, if_pos (by omega), hoff]
  exact congrArg some (by omega)

theorem translate_eq_none {s : Phys} {v : Nat} (h : ∀ e, s.leaf v pml4 = some e → e = 0) :
    s.translate v pml4 = none := by
  rw [translate_eq]
  cases hl : s.leaf v pml4 with
  | none => rfl
  | some e =>
    rw [Option.bind_some, h e hl]
    rfl

/-- **What `mapKernelMemory` maps.** The free frames are mapped afterwards if all of them lie
below `physend`, or if there were so few that the tables took them all. -/
theorem mapKernelMemory_spec (hx : s.exhausted = false) {physend fuel : Nat}
    (hend : physend < 0x10000000) (hfuel : 0x10000 ≤ fuel)
    (h256 : ∀ m < maxFrames, IsFree s.availFrames m → 256 ≤ m) :
    ∃ pml4 t, s.mapKernelMemory physend fuel = some (pml4, t) ∧
      (FreeFramesMapped t pml4 ↔
        (∀ m < maxFrames, IsFree s.availFrames m → m ≤ physend / 0x1000) ∨
        (freeFrames s.availFrames).card ≤ 3 + pageTables (physend / 0x1000 + 1)) := by
  obtain ⟨pml4, k, hk⟩ : ∃ pml4 k, s.linkKernelTables = (pml4, k) := ⟨_, _, rfl⟩
  have hmap : s.mapKernelMemory physend fuel =
      some (pml4, k.mapPages pml4 (physend / 0x1000 + 1 - 256) 256) := by
    simp only [Phys.mapKernelMemory, hk, identityMapping_eq k pml4 hend hfuel, Option.map_some]
  refine ⟨pml4, _, hmap, ?_⟩
  set n := physend / 0x1000 + 1 - 256 with hn
  have hpages : pageTables (256 + n) = pageTables (physend / 0x1000 + 1) := by
    simp only [pageTables]
    split <;> split <;> omega
  have hmax : 256 + n ≤ maxFrames := by
    simp only [maxFrames, maxBitmapRows]
    omega
  have hdraw : Draws s.availFrames (k.mapPages pml4 n 256) := by
    have := (Draws.refl hx).linkKernelTables.mapPages s.linkKernelTables.1 n 256
    rwa [hk] at this
  -- the loop from the four tables on
  have hloop : k.exhausted = false → (k.mapPages pml4 n 256).exhausted = false ∨
      3 + pageTables (physend / 0x1000 + 1) < (freeFrames s.availFrames).card →
      ∃ pdpt pdt pt Γ, KernelTree k (k.mapPages pml4 n 256) (kernelUse pml4 pdpt pdt pt) Γ pml4
        (256 + n) ∧ (k.mapPages pml4 n 256).exhausted = false ∧
        (freeFrames k.availFrames).card + 4 = (freeFrames s.availFrames).card ∧
        (freeFrames s.availFrames).card ≤ (freeFrames (k.mapPages pml4 n 256).availFrames).card +
          (3 + pageTables (physend / 0x1000 + 1)) := by
    intro hkx hlive
    have hspec := linkKernelTables_spec (s := s) (by rw [hk]; exact hkx)
    rw [hk] at hspec
    obtain ⟨pdpt, pdt, pt, hlinked, hfour⟩ := hspec
    dsimp only at hlinked hfour
    have h1 : pageTables 256 = 1 := rfl
    obtain ⟨hlive', ⟨Γ, htree⟩, hcount⟩ := hlinked.kernelTree.mapPages n (le_refl _) hmax
      (hlive.imp id fun hlt => ⟨hkx, by omega⟩)
    exact ⟨pdpt, pdt, pt, Γ, htree, hlive', hfour, by omega⟩
  constructor
  · intro hall
    by_cases hfew : (freeFrames s.availFrames).card ≤ 3 + pageTables (physend / 0x1000 + 1)
    · exact Or.inr hfew
    · refine Or.inl fun m hm hfree => ?_
      by_contra hgt
      -- four frames can be had, and the loop does not run out of frames
      have hkx : k.exhausted = false := by
        obtain ⟨x₁, c₁⟩ := kmalloc_alive_of_le (k := 3) hx (by omega)
        obtain ⟨x₂, c₂⟩ := kmalloc_alive_of_le (k := 2) x₁ c₁
        obtain ⟨x₃, c₃⟩ := kmalloc_alive_of_le (k := 1) x₂ c₂
        obtain ⟨x₄, -⟩ := kmalloc_alive_of_le (k := 0) x₃ c₃
        have hk₂ := congrArg (fun r => r.2.exhausted) hk
        simpa only [Phys.linkKernelTables, Phys.store64_exhausted, x₄] using hk₂.symm
      obtain ⟨pdpt, pdt, pt, Γ, htree, -, -, hleft⟩ := hloop hkx (Or.inr (by omega))
      obtain ⟨q, hq⟩ : (freeFrames (k.mapPages pml4 n 256).availFrames).Nonempty := by
        rw [← Finset.card_pos]
        omega
      obtain ⟨hqm, hq⟩ := mem_freeFrames.mp hq
      -- the highest frames are left, and they lie behind the last page mapped
      obtain ⟨f, hfm, hf, hfgt⟩ : ∃ f < maxFrames,
          IsFree (k.mapPages pml4 n 256).availFrames f ∧ m ≤ f := by
        rcases Nat.le_total m q with hle | hle
        · exact ⟨q, hqm, hq, hle⟩
        · exact ⟨m, hm, hdraw.upper q m hq hle hfree, le_refl _⟩
      have hnone := translate_eq_none (htree.ahead f (by have := h256 m hm hfree; omega) hfm)
      rw [hall f hfm hf] at hnone
      cases hnone
  · intro hcond m hm hfree
    have hlive : (k.mapPages pml4 n 256).exhausted = false := by
      by_contra hdry
      exact hdraw.dry (by simpa using hdry) m hm hfree
    have hkx := mapPages_live hlive
    obtain ⟨pdpt, pdt, pt, Γ, htree, -, hfour, -⟩ := hloop hkx (Or.inl hlive)
    have hfree' := hdraw.sub m hfree
    rcases hcond with hbelow | hfew
    · have := h256 m hm hfree'
      have := hbelow m hm hfree'
      exact translate_kernel (htree.mapped m (by omega) (by omega))
    · -- no frame is left
      have hcount := htree.count hmax
      have hpos := Finset.card_pos.mpr ⟨m, mem_freeFrames.mpr ⟨hm, hfree⟩⟩
      omega

/-! ### From the memory map -/

/-- The end of the region `initBitmap` is called for last, which is what `PHYSEND` keeps. -/
def lastEnd (smap : List SMap) : Nat := ((availableRegions smap).getLast?.map (·.2)).getD 0

/-- The frames `initBitmap` frees: those an available entry has bytes of and the one behind it,
above the first megabyte and above the frame `top`. -/
def freedFrames (smap : List SMap) (top : Nat) : Finset Nat :=
  (Finset.range maxFrames).filter fun m => 256 ≤ m ∧ top < m ∧
    ∃ e ∈ smap, e.Available ∧ e.base / 0x1000 ≤ m ∧ m ≤ (e.base + e.length) / 0x1000

/-- Memory when `mapKernelMemory` is called. -/
def bootMemory (mem : Mem) (tasks : Nat → Task) (phy : PhyMem) : Phys :=
  ⟨mem, phy.availFrames, false, tasks⟩

theorem bootSmap_physend (a : Bitmap) (physbase physfree : Nat) (smap : List SMap) :
    (bootSmap a physbase physfree smap).physend = lastEnd smap := by
  unfold bootSmap boot lastEnd
  induction availableRegions smap using List.reverseRecOn with
  | nil => rfl
  | append_singleton l r _ =>
    rw [List.foldl_append, List.getLast?_append]
    rfl

theorem lastEnd_lt {smap : List SMap}
    (hend : ∀ e ∈ smap, e.Available → e.base + e.length < 0x10000000) :
    lastEnd smap < 0x10000000 := by
  unfold lastEnd
  cases hl : (availableRegions smap).getLast? with
  | none => exact Nat.zero_lt_succ _
  | some r =>
    obtain ⟨e, he, rfl⟩ := List.mem_map.mp (List.mem_of_getLast? hl)
    obtain ⟨he, hav⟩ := List.mem_filter.mp he
    exact lt_of_le_of_lt (Nat.mod_le _ _) (hend e he (by simpa using hav))

theorem freeFrames_bootSmap (a : Bitmap) (physbase physfree : Nat) {smap : List SMap}
    (hend : ∀ e ∈ smap, e.Available → e.base + e.length < 0x10000000) :
    freeFrames (bootSmap a physbase physfree smap).availFrames =
      freedFrames smap (reservedTop physfree) := by
  ext m
  rw [mem_freeFrames, freedFrames, Finset.mem_filter, Finset.mem_range]
  refine and_congr_right fun hm => ?_
  rw [isFree_bootSmap (fun e he hav => lt_trans (hend e he hav) (by decide)) hm]
  tauto

theorem mem_freedFrames_boot {a : Bitmap} {physbase physfree m : Nat} {smap : List SMap}
    (hend : ∀ e ∈ smap, e.Available → e.base + e.length < 0x10000000) :
    m < maxFrames ∧ IsFree (bootSmap a physbase physfree smap).availFrames m ↔
      m ∈ freedFrames smap (reservedTop physfree) := by
  rw [← freeFrames_bootSmap a physbase physfree hend, mem_freeFrames]

/-- **When every frame that can be handed out is mapped.** Either no region ends in a later frame
than the region that is reported last, as far as its frames are above the reserved zones, or the
page tables take every frame there is. -/
theorem freeFramesMapped_iff (mem : Mem) (tasks : Nat → Task) (a : Bitmap)
    (physbase physfree : Nat) (smap : List SMap) (fuel : Nat)
    (hend : ∀ e ∈ smap, e.Available → e.base + e.length < 0x10000000) (hfuel : 0x10000 ≤ fuel) :
    ∃ pml4 t, (bootMemory mem tasks (bootSmap a physbase physfree smap)).mapKernelMemory
        (bootSmap a physbase physfree smap).physend fuel = some (pml4, t) ∧
      (FreeFramesMapped t pml4 ↔
        (∀ e ∈ smap, e.Available → e.EndsAbove (reservedTop physfree) →
          (e.base + e.length) / 0x1000 ≤ lastEnd smap / 0x1000) ∨
        (freedFrames smap (reservedTop physfree)).card ≤
          3 + pageTables (lastEnd smap / 0x1000 + 1)) := by
  have hfreed := fun m => @mem_freedFrames_boot a physbase physfree m smap hend
  rw [bootSmap_physend]
  obtain ⟨pml4, t, hmap, hiff⟩ := mapKernelMemory_spec
    (s := bootMemory mem tasks (bootSmap a physbase physfree smap)) rfl (lastEnd_lt hend) hfuel
    fun m hm hfree => (Finset.mem_filter.mp ((hfreed m).mp ⟨hm, hfree⟩)).2.1
  refine ⟨pml4, t, hmap, hiff.trans (or_congr ?_ ?_)⟩
  · constructor
    · -- the frame behind a region is one of the frames it frees
      intro h e he hav habove
      have hlt := hend e he hav
      have hm : (e.base + e.length) / 0x1000 < maxFrames := by
        simp only [maxFrames, maxBitmapRows]
        omega
      refine h _ hm ((hfreed _).mpr (Finset.mem_filter.mpr ⟨Finset.mem_range.mpr hm, habove.1,
        habove.2, e, he, hav, by omega, le_refl _⟩)).2
    · intro h m hm hfree
      obtain ⟨-, h256, htop, e, he, hav, -, hle⟩ :=
        Finset.mem_filter.mp ((hfreed m).mp ⟨hm, hfree⟩)
      exact hle.trans (h e he hav ⟨by omega, by omega⟩)
  · have := freeFrames_bootSmap a physbase physfree hend
    simp only [bootMemory, this]

/-- Two regions in the order of their addresses. -/
theorem freeFramesMapped_ascending : ∃ pml4 t,
    (bootMemory (fun _ => 0) (fun _ => Task.zeroed) (bootSmap (fun _ => 0#64) 0x200000 0x210000
      [⟨0x100000, 0x1f00000, 1⟩, ⟨0x4000000, 0x1000000, 1⟩])).mapKernelMemory
      (bootSmap (fun _ => 0#64) 0x200000 0x210000
        [⟨0x100000, 0x1f00000, 1⟩, ⟨0x4000000, 0x1000000, 1⟩]).physend 0x10000 = some (pml4, t) ∧
      FreeFramesMapped t pml4 := by
  obtain ⟨pml4, t, hmap, hiff⟩ := freeFramesMapped_iff (fun _ => 0) (fun _ => Task.zeroed)
    (fun _ => 0#64) 0x200000 0x210000 [⟨0x100000, 0x1f00000, 1⟩, ⟨0x4000000, 0x1000000, 1⟩]
    0x10000 (by decide) (by decide)
  exact ⟨pml4, t, hmap, hiff.mpr (Or.inl (by decide))⟩

/-- The same regions, the upper one reported first. -/
def descendingMap : List SMap := [⟨0x4000000, 0x1000000, 1⟩, ⟨0x100000, 0x1f00000, 1⟩]

/-- The upper region is not mapped, and its frames outlast the page tables of the lower one. -/
theorem freeFrames_not_mapped_descending : ∃ pml4 t,
    (bootMemory (fun _ => 0) (fun _ => Task.zeroed)
      (bootSmap (fun _ => 0#64) 0x200000 0x210000 descendingMap)).mapKernelMemory
      (bootSmap (fun _ => 0#64) 0x200000 0x210000 descendingMap).physend 0x10000 =
        some (pml4, t) ∧
      ¬ FreeFramesMapped t pml4 := by
  have hend : ∀ e ∈ descendingMap, e.Available → e.base + e.length < 0x10000000 := by decide
  have hfreed := fun m => @mem_freedFrames_boot (fun _ => 0#64) 0x200000 0x210000 m _ hend
  have hcount := freeFrames_bootSmap (fun _ => 0#64) 0x200000 0x210000 hend
  rw [bootSmap_physend]
  generalize bootSmap (fun _ => 0#64) 0x200000 0x210000 descendingMap = phy at hfreed hcount
  obtain ⟨pml4, t, hmap, hiff⟩ := mapKernelMemory_spec
    (s := bootMemory (fun _ => 0) (fun _ => Task.zeroed) phy) rfl (lastEnd_lt hend)
    (le_refl 0x10000) fun m hm hfree => (Finset.mem_filter.mp ((hfreed m).mp ⟨hm, hfree⟩)).2.1
  have hupper : Finset.Icc 0x4000 0x4fff ⊆ freedFrames descendingMap (reservedTop 0x210000) := by
    intro m hm
    obtain ⟨h₁, h₂⟩ := Finset.mem_Icc.mp hm
    have htop : reservedTop 0x210000 = 0x230 := by decide
    have hmax : m < maxFrames := lt_of_le_of_lt h₂ (by decide)
    refine Finset.mem_filter.mpr ⟨Finset.mem_range.mpr hmax, by omega, by omega,
      ⟨0x4000000, 0x1000000, 1⟩, by decide, by decide, ?_, ?_⟩ <;> dsimp only <;> omega
  refine ⟨pml4, t, hmap, fun hall => ?_⟩
  rcases hiff.mp hall with hbelow | hfew
  · obtain ⟨hm, hfree⟩ := (hfreed 0x4500).mpr (hupper (by
      rw [Finset.mem_Icc]
      decide))
    exact absurd (hbelow 0x4500 hm hfree) (by decide)
  · have hcard := Finset.card_le_card hupper
    rw [bootMemory, hcount] at hfew
    have := hcard.trans hfew
    rw [Nat.card_Icc] at this
    exact absurd this (by decide)

end Sbunix
