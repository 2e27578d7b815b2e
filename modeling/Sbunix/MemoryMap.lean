import Mathlib.Data.Finset.Max
import Sbunix.PhyMem

/-!
# The memory map at boot

The loop of `start` in `sys/main.c` over the entries of the BIOS memory map: every entry of
type 1 that is not empty goes to `initBitmap` as the pair of its first byte and the byte behind
its last one. `initBitmap` frees the frames from the one of `start` up to and including the one
of `end`, so the frame behind a region becomes free as well.

* `availableRegions` is what `start` passes on;
* `FrameInside` is what the entries mean: the frames that consist of available bytes only;
* `bitmapExact_iff` says when bitmap and memory map agree. The region that ends last always has
  a freed frame behind it, which no region contains, so they agree only where nothing is freed;
* `storesInBitmap_iff` says when the marks stay in the array: `markasFree` does not look at
  `MAX_BITMAP_ROWS`, so a region that ends at 256 MiB or above is entered behind the bitmap.
-/

namespace Sbunix

/-- `struct smap_t`. -/
structure SMap where
  base : Nat
  length : Nat
  type : Nat
  deriving DecidableEq, Repr

/-- The condition of the loop: available memory, and some of it. -/
def SMap.Available (e : SMap) : Prop := e.type = 1 ∧ e.length ≠ 0

instance (e : SMap) : Decidable e.Available := inferInstanceAs (Decidable (_ ∧ _))

/-- The arguments of `initBitmap` in the order in which `start` finds the entries. -/
def availableRegions (smap : List SMap) : List (Nat × Nat) :=
  (smap.filter (·.Available)).map fun e => (e.base, (e.base + e.length) % 2 ^ 64)

/-- Frame `m` consists of bytes of one available entry. -/
def FrameInside (smap : List SMap) (m : Nat) : Prop :=
  ∃ e ∈ smap, e.Available ∧ e.base ≤ m * 0x1000 ∧ (m + 1) * 0x1000 ≤ e.base + e.length

/-- What `start` does for the allocator: its static variables are zero at first, and there is no
telling what memory holds where the bitmap will be. -/
def bootSmap (availFrames : Bitmap) (physbase physfree : Nat) (smap : List SMap) : PhyMem :=
  boot ⟨availFrames, 0, 0, 0, 0⟩ physbase physfree (availableRegions smap)

/-- The frame of `KER_PHYSFREE` when the memory map is read: the kernel image ends at `physfree`,
and the bitmap and the AHCI area have been put behind it. -/
def reservedTop (physfree : Nat) : Nat :=
  (physfree + maxBitmapRows * 64 / 8 + 122880) % 2 ^ 64 / 0x1000

/-- **What the bitmap is for**: the free frames are the whole frames of available memory above
the first megabyte and above the frame `top`. -/
def BitmapExact (availFrames : Bitmap) (smap : List SMap) (top : Nat) : Prop :=
  ∀ m < maxFrames, IsFree availFrames m ↔ FrameInside smap m ∧ top < m ∧ 256 ≤ m

/-- The frame behind the entry is neither in the first megabyte nor reserved. -/
def SMap.EndsAbove (e : SMap) (top : Nat) : Prop :=
  256 ≤ (e.base + e.length) / 0x1000 ∧ top < (e.base + e.length) / 0x1000

instance (e : SMap) (top : Nat) : Decidable (e.EndsAbove top) :=
  inferInstanceAs (Decidable (_ ∧ _))

theorem boot_kerPhysfree (s : PhyMem) (physbase physfree : Nat) (regions : List (Nat × Nat)) :
    (boot s physbase physfree regions).kerPhysfree / 0x1000 = reservedTop physfree := by
  unfold boot reservedTop
  rw [foldl_initBitmap_kerPhysfree]
  simp only [allocateAHCI, allocateBitmapMem, initPhys, Nat.mod_add_mod]

/-- The frames `initBitmap` counts to an available entry, entry by entry. -/
theorem inRegion_availableRegions {smap : List SMap} {m : Nat}
    (hend : ∀ e ∈ smap, e.Available → e.base + e.length < 2 ^ 64) :
    InRegion (availableRegions smap) m ↔
      ∃ e ∈ smap, e.Available ∧ e.base / 0x1000 ≤ m ∧ m ≤ (e.base + e.length) / 0x1000 := by
  unfold InRegion availableRegions
  constructor
  · rintro ⟨r, hr, h₁, h₂⟩
    obtain ⟨e, he, rfl⟩ := List.mem_map.mp hr
    obtain ⟨he, hav⟩ := List.mem_filter.mp he
    have hav : e.Available := by simpa using hav
    dsimp only at h₁ h₂
    rw [Nat.mod_eq_of_lt (hend e he hav)] at h₂
    exact ⟨e, he, hav, h₁, h₂⟩
  · rintro ⟨e, he, hav, h₁, h₂⟩
    refine ⟨_, List.mem_map.mpr ⟨e, List.mem_filter.mpr ⟨he, by simpa using hav⟩, rfl⟩, h₁, ?_⟩
    dsimp only
    rwa [Nat.mod_eq_of_lt (hend e he hav)]

/-- The bitmap after boot in terms of the memory map. -/
theorem isFree_bootSmap {a : Bitmap} {physbase physfree : Nat} {smap : List SMap} {m : Nat}
    (hend : ∀ e ∈ smap, e.Available → e.base + e.length < 2 ^ 64) (hm : m < maxFrames) :
    IsFree (bootSmap a physbase physfree smap).availFrames m ↔
      (∃ e ∈ smap, e.Available ∧ e.base / 0x1000 ≤ m ∧ m ≤ (e.base + e.length) / 0x1000) ∧
        256 ≤ m ∧ reservedTop physfree < m := by
  unfold bootSmap
  rw [isFree_boot hm, inRegion_availableRegions hend, boot_kerPhysfree]

/-- Among the available entries one ends last. -/
theorem exists_ends_last {smap : List SMap} {e : SMap} (he : e ∈ smap) (hav : e.Available) :
    ∃ l ∈ smap, l.Available ∧
      ∀ d ∈ smap, d.Available → d.base + d.length ≤ l.base + l.length := by
  have hmem : ∀ d, d ∈ smap.toFinset.filter SMap.Available ↔ d ∈ smap ∧ d.Available := fun d => by
    rw [Finset.mem_filter, List.mem_toFinset]
  obtain ⟨l, hl, hmax⟩ := Finset.exists_max_image _ (fun d => d.base + d.length)
    ⟨e, (hmem e).mpr ⟨he, hav⟩⟩
  obtain ⟨hl, hlav⟩ := (hmem l).mp hl
  exact ⟨l, hl, hlav, fun d hd hdav => hmax d ((hmem d).mpr ⟨hd, hdav⟩)⟩

/-- **The bitmap matches the memory map only where it frees nothing.** The frame behind the
region that ends last is freed, and no region has it. -/
theorem bitmapExact_iff (a : Bitmap) (physbase physfree : Nat) (smap : List SMap)
    (hend : ∀ e ∈ smap, e.Available → e.base + e.length < 0x10000000) :
    BitmapExact (bootSmap a physbase physfree smap).availFrames smap (reservedTop physfree) ↔
      ∀ e ∈ smap, e.Available → ¬ e.EndsAbove (reservedTop physfree) := by
  have hend' : ∀ e ∈ smap, e.Available → e.base + e.length < 2 ^ 64 := fun e he hav =>
    lt_trans (hend e he hav) (by decide)
  constructor
  · intro hexact e he hav habove
    obtain ⟨l, hl, hlav, hlast⟩ := exists_ends_last he hav
    -- the frame behind the last region is above the reserved zones, so it has been freed
    have hle := hlast e he hav
    have hlt := hend l hl hlav
    obtain ⟨h₁, h₂⟩ := habove
    set m := (l.base + l.length) / 0x1000 with hm
    have hmax : m < maxFrames := by
      simp only [maxFrames, maxBitmapRows]
      omega
    have hfree := (@isFree_bootSmap a physbase physfree _ _ hend' hmax).mpr
      ⟨⟨l, hl, hlav, by omega, le_refl _⟩, by omega, by omega⟩
    obtain ⟨⟨d, hd, hdav, -, hdm⟩, -⟩ := (hexact m hmax).mp hfree
    -- … but it would have to end in front of the last region
    have := hlast d hd hdav
    omega
  · intro hnone m hm
    rw [isFree_bootSmap hend' hm]
    -- neither side holds of any frame
    constructor
    · rintro ⟨⟨e, he, hav, -, hle⟩, h256, htop⟩
      exact absurd ⟨by omega, by omega⟩ (hnone e he hav)
    · rintro ⟨⟨e, he, hav, -, hle⟩, htop, h256⟩
      exact absurd ⟨by omega, by omega⟩ (hnone e he hav)

/-- Memory that ends inside the kernel image is not handed out at all. -/
theorem bitmapExact_reserved : BitmapExact
    (bootSmap (fun _ => 0#64) 0x200000 0x210000 [⟨0x100000, 0x108000, 1⟩]).availFrames
    [⟨0x100000, 0x108000, 1⟩] (reservedTop 0x210000) :=
  (bitmapExact_iff (fun _ => 0#64) 0x200000 0x210000 _ (by decide)).mpr (by decide)

/-- The first 127 MiB of a machine, up to a reserved area that starts at `0x7fe0000`, and that
area. -/
def smallMemoryMap : List SMap := [⟨0x100000, 0x7ee0000, 1⟩, ⟨0x7fe0000, 0x20000, 2⟩]

/-- The first frame of the reserved area is marked free. -/
theorem not_bitmapExact_smallMemoryMap : ¬ BitmapExact
    (bootSmap (fun _ => 0#64) 0x200000 0x210000 smallMemoryMap).availFrames
    smallMemoryMap (reservedTop 0x210000) := by
  intro h
  have hend : ∀ e ∈ smallMemoryMap, e.Available → e.base + e.length < 2 ^ 64 := by decide
  have hfree := (@isFree_bootSmap (fun _ => 0#64) 0x200000 0x210000 _ 0x7fe0 hend
    (by decide)).mpr ⟨by decide, by decide, by decide⟩
  have hin : ∀ e ∈ smallMemoryMap, e.Available → ¬ (0x7fe0 + 1) * 0x1000 ≤ e.base + e.length := by
    decide
  obtain ⟨⟨e, he, hav, -, hle⟩, -⟩ := (h 0x7fe0 (by decide)).mp hfree
  exact hin e he hav hle

/-! ### The stores into the bitmap -/

/-- A read-modify-write of one word of `availFrames`, by the call that makes it. -/
inductive Mark
  | markasFree (frameNum : Nat)
  | markasUsed (frameNum : Nat)

/-- `ROW(frameNum)`, the index into `availFrames`. -/
def Mark.row : Mark → Nat
  | .markasFree frameNum => frameNum / 64
  | .markasUsed frameNum => frameNum / 64

def Mark.run (availFrames : Bitmap) : Mark → Bitmap
  | .markasFree frameNum => Sbunix.markasFree availFrames frameNum
  | .markasUsed frameNum => Sbunix.markasUsed availFrames frameNum

/-- The calls `initBitmap` makes, in order: the loop over the region and the first megabyte. -/
def initBitmapMarks (kerPhysfree start stop : Nat) : List Mark :=
  ((List.range' (start / 0x1000) (stop / 0x1000 + 1 - start / 0x1000)).filter
      fun frameNum => ¬ frameNum ≤ kerPhysfree / 0x1000).map .markasFree ++
    (List.range 256).map .markasUsed

/-- The calls of all rounds of `start`. `KER_PHYSFREE` does not change any more. -/
def bootMarks (physfree : Nat) (smap : List SMap) : List Mark :=
  (availableRegions smap).flatMap fun r =>
    initBitmapMarks ((physfree + maxBitmapRows * 64 / 8 + 122880) % 2 ^ 64) r.1 r.2

/-- The last frame of the region lies behind the bitmap, above the reserved frames, and the
region does not end before it starts. -/
def SMap.EndsBehind (e : SMap) (top : Nat) : Prop :=
  e.base / 0x1000 ≤ (e.base + e.length) % 2 ^ 64 / 0x1000 ∧
    maxFrames ≤ (e.base + e.length) % 2 ^ 64 / 0x1000 ∧
    top < (e.base + e.length) % 2 ^ 64 / 0x1000

instance (e : SMap) (top : Nat) : Decidable (e.EndsBehind top) :=
  inferInstanceAs (Decidable (_ ∧ _))

/-- **What the array bound is for**: the memory map is entered into the bitmap and nowhere
else. -/
structure StoresInBitmap (physbase physfree : Nat) (smap : List SMap) : Prop where
  /-- Every word stored to is a word of the array. -/
  rows : ∀ mark ∈ bootMarks physfree smap, mark.row < maxBitmapRows
  /-- The memory behind the array, the AHCI area first, is what it was. -/
  behind : ∀ (availFrames : Bitmap) (row : Nat), maxBitmapRows ≤ row →
    (bootSmap availFrames physbase physfree smap).availFrames row = availFrames row

/-- The marks are the loop of `initBitmap`: running them gives its bitmap. -/
theorem initBitmap_availFrames (s : PhyMem) (start stop : Nat) :
    (initBitmap s start stop).availFrames =
      (initBitmapMarks s.kerPhysfree start stop).foldl Mark.run s.availFrames := by
  have hskip : ∀ (l : List Nat) (a : Bitmap) (top : Nat),
      l.foldl (fun a frameNum => if frameNum ≤ top then a else markasFree a frameNum) a =
        ((l.filter fun frameNum => ¬ frameNum ≤ top).map Mark.markasFree).foldl Mark.run a := by
    intro l
    induction l with
    | nil => intro a top; rfl
    | cons n l ih =>
      intro a top
      by_cases hn : n ≤ top
      · simp only [List.foldl_cons, if_pos hn, ih]
        rw [List.filter_cons_of_neg (by simpa using hn)]
      · simp only [List.foldl_cons, if_neg hn, ih]
        rw [List.filter_cons_of_pos (by simpa using hn)]
        rfl
  simp only [initBitmap, initBitmapMarks, List.foldl_append, hskip]
  rw [List.foldl_map (f := Mark.markasUsed)]
  rfl

theorem foldl_initBitmap_availFrames (l : List (Nat × Nat)) (s : PhyMem) :
    (l.foldl (fun s r => initBitmap s r.1 r.2) s).availFrames =
      (l.flatMap fun r => initBitmapMarks s.kerPhysfree r.1 r.2).foldl Mark.run
        s.availFrames := by
  induction l generalizing s with
  | nil => rfl
  | cons r l ih =>
    rw [List.foldl_cons, ih, initBitmap_kerPhysfree, initBitmap_availFrames, List.flatMap_cons,
      List.foldl_append]

/-- The bitmap after boot is the cleared array after all marks. -/
theorem bootSmap_availFrames (a : Bitmap) (physbase physfree : Nat) (smap : List SMap) :
    (bootSmap a physbase physfree smap).availFrames =
      (bootMarks physfree smap).foldl Mark.run
        (allocateBitmapMem ⟨a, 0, 0, 0, 0⟩).availFrames := by
  unfold bootSmap boot bootMarks
  rw [foldl_initBitmap_availFrames]
  simp only [allocateAHCI, allocateBitmapMem, initPhys, Nat.mod_add_mod]

/-- A mark leaves all words but its own. -/
theorem Mark.run_of_ne (a : Bitmap) (mark : Mark) {row : Nat} (h : row ≠ mark.row) :
    mark.run a row = a row := by
  cases mark with
  | markasFree n => exact Function.update_of_ne h _ _
  | markasUsed n => exact Function.update_of_ne h _ _

theorem foldl_run_of_rows {l : List Mark} {n : Nat} (h : ∀ mark ∈ l, mark.row < n) (a : Bitmap)
    {row : Nat} (hrow : n ≤ row) : l.foldl Mark.run a row = a row := by
  induction l generalizing a with
  | nil => rfl
  | cons mark l ih =>
    have hmark := h mark List.mem_cons_self
    rw [List.foldl_cons, ih (fun m hm => h m (List.mem_cons_of_mem _ hm)),
      Mark.run_of_ne a mark (by omega)]

/-- Clearing the array touches its words only. -/
theorem allocateBitmapMem_behind (s : PhyMem) {row : Nat} (hrow : maxBitmapRows ≤ row) :
    (allocateBitmapMem s).availFrames row = s.availFrames row := by
  have hclear : ∀ (n : Nat) (a : Bitmap), n ≤ row →
      (List.range n).foldl (fun a i => Function.update a i 0#64) a row = a row := by
    intro n
    induction n with
    | zero => intro a _; rfl
    | succ n ih =>
      intro a h
      rw [List.range_succ, List.foldl_append, List.foldl_cons, List.foldl_nil,
        Function.update_of_ne (by omega), ih a (by omega)]
  unfold allocateBitmapMem
  dsimp only
  rw [hclear maxBitmapRows s.availFrames hrow]

/-- The frames that are passed to `markasFree`, and the 256 of the first megabyte. -/
theorem mem_bootMarks {physfree : Nat} {smap : List SMap} {mark : Mark} :
    mark ∈ bootMarks physfree smap ↔ ∃ e ∈ smap, e.Available ∧
      ((∃ n, mark = .markasFree n ∧ e.base / 0x1000 ≤ n ∧
          n ≤ (e.base + e.length) % 2 ^ 64 / 0x1000 ∧ reservedTop physfree < n) ∨
        ∃ n < 256, mark = .markasUsed n) := by
  unfold bootMarks availableRegions
  rw [List.mem_flatMap]
  constructor
  · rintro ⟨r, hr, hmark⟩
    obtain ⟨e, he, rfl⟩ := List.mem_map.mp hr
    obtain ⟨he, hav⟩ := List.mem_filter.mp he
    refine ⟨e, he, by simpa using hav, ?_⟩
    -- the frames of the region, and those of the first megabyte
    rcases List.mem_append.mp hmark with hmark | hmark
    · obtain ⟨n, hn, rfl⟩ := List.mem_map.mp hmark
      obtain ⟨hn, htop⟩ := List.mem_filter.mp hn
      obtain ⟨hlo, hhi⟩ := List.mem_range'_1.mp hn
      have htop : reservedTop physfree < n := by simpa [reservedTop] using htop
      dsimp only at hlo hhi
      exact Or.inl ⟨n, rfl, hlo, by omega, htop⟩
    · obtain ⟨n, hn, rfl⟩ := List.mem_map.mp hmark
      exact Or.inr ⟨n, List.mem_range.mp hn, rfl⟩
  · rintro ⟨e, he, hav, hmark⟩
    refine ⟨(e.base, (e.base + e.length) % 2 ^ 64), List.mem_map.mpr
      ⟨e, List.mem_filter.mpr ⟨he, by simpa using hav⟩, rfl⟩, List.mem_append.mpr ?_⟩
    rcases hmark with ⟨n, rfl, hlo, hhi, htop⟩ | ⟨n, hn, rfl⟩
    · refine Or.inl (List.mem_map.mpr ⟨n, List.mem_filter.mpr ⟨?_, ?_⟩, rfl⟩)
      · rw [List.mem_range'_1]
        exact ⟨hlo, by dsimp only; omega⟩
      · simpa [reservedTop] using htop
    · exact Or.inr (List.mem_map.mpr ⟨n, List.mem_range.mpr hn, rfl⟩)

/-- **The stores stay in the bitmap exactly when no region that is entered ends at or behind its
last frame.** The frame behind the bitmap is the one at 256 MiB. -/
theorem storesInBitmap_iff (physbase physfree : Nat) (smap : List SMap) :
    StoresInBitmap physbase physfree smap ↔
      ∀ e ∈ smap, e.Available → ¬ e.EndsBehind (reservedTop physfree) := by
  constructor
  · intro h e he hav hbehind
    obtain ⟨hle, hmax, htop⟩ := hbehind
    -- the loop reaches the frame of the end address itself
    have hrow := h.rows (.markasFree ((e.base + e.length) % 2 ^ 64 / 0x1000))
      (mem_bootMarks.mpr ⟨e, he, hav, Or.inl ⟨_, rfl, hle, le_refl _, htop⟩⟩)
    simp only [Mark.row, maxFrames] at hrow hmax
    omega
  · intro h
    have hrows : ∀ mark ∈ bootMarks physfree smap, mark.row < maxBitmapRows := by
      intro mark hmark
      obtain ⟨e, he, hav, hmark⟩ := mem_bootMarks.mp hmark
      rcases hmark with ⟨n, rfl, hlo, hhi, htop⟩ | ⟨n, hn, rfl⟩
      · by_contra hrow
        simp only [Mark.row] at hrow
        refine h e he hav ⟨by omega, ?_, by omega⟩
        simp only [maxFrames]
        omega
      · simp only [Mark.row, maxBitmapRows]
        omega
    refine ⟨hrows, fun a row hrow => ?_⟩
    rw [bootSmap_availFrames, foldl_run_of_rows hrows _ hrow, allocateBitmapMem_behind _ hrow]

/-- On a machine with 512 MiB word 2048 is stored to. -/
theorem not_storesInBitmap_512 :
    ¬ StoresInBitmap 0x200000 0x210000 [⟨0, 0x9fc00, 1⟩, ⟨0x100000, 0x1ff00000, 1⟩] := by
  intro h
  have hrow := h.rows (.markasFree 0x20000) (mem_bootMarks.mpr
    ⟨⟨0x100000, 0x1ff00000, 1⟩, by simp, by decide, Or.inl ⟨0x20000, rfl, by decide⟩⟩)
  exact absurd hrow (by decide)

end Sbunix
