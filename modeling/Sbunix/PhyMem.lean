import Mathlib.Algebra.Group.Nat.Defs
import Mathlib.Data.List.Induction
import Mathlib.Data.Nat.Find
import Mathlib.Logic.Function.Basic
import Mathlib.Tactic.Common
import Sbunix.Lib.Runs

/-!
# The physical frame allocator

`sys/phyMemMapper.c`: one bit per 4 KiB frame in the array `availFrames` of 1024 words, a set bit
meaning that the frame is free. Boot zeroes the array and then lets `initBitmap` free the frames
of every available region above the kernel; `pageAllocator` takes the lowest free frame and
`pageDeAllocator` gives one back.

* `IsFree` reads a bit, and `isFree_markasFree`, `isFree_markasUsed`, `getFirstFrame_eq_some_iff`,
  `getFirstFrame_eq_none_iff` are the specifications of the four bitmap functions;
* `isFree_boot` is the bitmap after boot, region by region;
* `allocator_safe` is the whole-run statement about `pageAllocator`.

Rows from `MAX_BITMAP_ROWS` on are not part of the array: they stand for the memory behind it, so
that a store through `markasFree` that leaves the array is visible as a change there.
-/

namespace Sbunix

/-- The words behind `availFrames`, by row. -/
abbrev Bitmap := Nat → BitVec 64

/-- `MAX_BITMAP_ROWS`, as `set_bitmap_rows` sets it. -/
def maxBitmapRows : Nat := 1024

/-- `PAGE_SIZE`. -/
def pageSize : Nat := 0x1000

def markasFree (availFrames : Bitmap) (frameNum : Nat) : Bitmap :=
  Function.update availFrames (frameNum / 64)
    (availFrames (frameNum / 64) ||| (1#64 <<< (frameNum % 64)))

def markasUsed (availFrames : Bitmap) (frameNum : Nat) : Bitmap :=
  Function.update availFrames (frameNum / 64)
    (availFrames (frameNum / 64) &&& ~~~(1#64 <<< (frameNum % 64)))

/-- `isFrameUsed`: in spite of its name it is nonzero when the frame is free. -/
def isFrameUsed (availFrames : Bitmap) (frameNum : Nat) : BitVec 64 :=
  availFrames (frameNum / 64) &&& (1#64 <<< (frameNum % 64))

/-- The first free frame in row and column order; `none` is the `-1` of the source. -/
def getFirstFrame (availFrames : Bitmap) : Option Nat :=
  (List.range maxBitmapRows).findSome? fun row =>
    if availFrames row ≠ 0#64 then
      (List.range 64).findSome? fun col =>
        if availFrames row &&& (1#64 <<< col) ≠ 0#64 then some (row * 64 + col) else none
    else none

/-- `pageAllocator`: the address of the page taken, `0` being `NULL`. -/
def pageAllocator (availFrames : Bitmap) : Nat × Bitmap :=
  match getFirstFrame availFrames with
  | none => (0, availFrames)
  | some frameNum => (frameNum * 0x1000, markasUsed availFrames frameNum)

def pageDeAllocator (availFrames : Bitmap) (pageAddr : Nat) : Bitmap :=
  markasFree availFrames (pageAddr / 0x1000)

/-! ### Boot -/

/-- The static variables of `phyMemMapper.c`. -/
structure PhyMem where
  availFrames : Bitmap
  kerPhysbase : Nat
  kerPhysfree : Nat
  physend : Nat
  ahciPhys : Nat

def initPhys (s : PhyMem) (base limit : Nat) : PhyMem :=
  { s with kerPhysbase := base, kerPhysfree := limit }

/-- `allocateBitmapMem`: the array is zeroed word by word and its bytes are counted to the
kernel image. -/
def allocateBitmapMem (s : PhyMem) : PhyMem :=
  { s with
    availFrames := (List.range maxBitmapRows).foldl (fun a i => Function.update a i 0#64)
      s.availFrames
    kerPhysfree := (s.kerPhysfree + maxBitmapRows * 64 / 8) % 2 ^ 64 }

/-- `allocateAHCI`; `AHCI_MEM` is 122880. -/
def allocateAHCI (s : PhyMem) : PhyMem :=
  { s with ahciPhys := s.kerPhysfree, kerPhysfree := (s.kerPhysfree + 122880) % 2 ^ 64 }

/-- `initBitmap`: frames `start/0x1000 .. end/0x1000`, both included, become free unless they lie
at or below the frame of `KER_PHYSFREE`; the first megabyte is marked used again. -/
def initBitmap (s : PhyMem) (start stop : Nat) : PhyMem :=
  let temp2 := s.kerPhysfree / 0x1000
  let freed := (List.range' (start / 0x1000) (stop / 0x1000 + 1 - start / 0x1000)).foldl
    (fun a frameNum => if frameNum ≤ temp2 then a else markasFree a frameNum) s.availFrames
  { s with
    availFrames := (List.range 256).foldl markasUsed freed
    physend := stop }

/-- The part of `start` that sets the allocator up, for the regions it finds. -/
def boot (s : PhyMem) (physbase physfree : Nat) (regions : List (Nat × Nat)) : PhyMem :=
  regions.foldl (fun s r => initBitmap s r.1 r.2)
    (allocateAHCI (allocateBitmapMem (initPhys s physbase physfree)))

/-! ### Bits -/

/-- The bit of a frame is set. -/
def IsFree (availFrames : Bitmap) (frameNum : Nat) : Prop :=
  (availFrames (frameNum / 64)).getLsbD (frameNum % 64) = true

instance (availFrames : Bitmap) (frameNum : Nat) : Decidable (IsFree availFrames frameNum) :=
  inferInstanceAs (Decidable (_ = true))

theorem getLsbD_one_shiftLeft {c j : Nat} (hj : j < 64) :
    (1#64 <<< c).getLsbD j = decide (j = c) := by
  rw [BitVec.getLsbD_shiftLeft]
  by_cases h : j < c
  · simp [h, Nat.ne_of_lt h]
  · by_cases h' : j = c
    · simp [h']
      omega
    · have : j - c ≠ 0 := by omega
      simp [h, h', hj, this]

private theorem same_frame_iff {n m : Nat} : n / 64 = m / 64 ∧ n % 64 = m % 64 ↔ n = m := by
  omega

theorem isFree_markasFree {a : Bitmap} {n m : Nat} :
    IsFree (markasFree a n) m ↔ m = n ∨ IsFree a m := by
  unfold IsFree markasFree
  by_cases h : m / 64 = n / 64
  · rw [h, Function.update_self, BitVec.getLsbD_or, getLsbD_one_shiftLeft (Nat.mod_lt _ (by decide))]
    simp only [Bool.or_eq_true, decide_eq_true_eq]
    rw [← same_frame_iff (n := m) (m := n)]
    tauto
  · rw [Function.update_of_ne h]
    have : m ≠ n := by
      rintro rfl
      exact h rfl
    tauto

theorem isFree_markasUsed {a : Bitmap} {n m : Nat} :
    IsFree (markasUsed a n) m ↔ m ≠ n ∧ IsFree a m := by
  unfold IsFree markasUsed
  by_cases h : m / 64 = n / 64
  · have hlt : m % 64 < 64 := Nat.mod_lt _ (by decide)
    rw [h, Function.update_self, BitVec.getLsbD_and, BitVec.getLsbD_not,
      getLsbD_one_shiftLeft hlt]
    have := same_frame_iff (n := m) (m := n)
    by_cases h' : m % 64 = n % 64
    · have hmn : m = n := this.mp ⟨h, h'⟩
      simp [hmn]
    · have hmn : m ≠ n := fun hmn => h' (by rw [hmn])
      simp [h', hmn, hlt]
  · rw [Function.update_of_ne h]
    have : m ≠ n := by
      rintro rfl
      exact h rfl
    tauto

/-- `availFrames[row] & (1 << col)` reads bit `col`. -/
theorem and_bit_ne_zero {w : BitVec 64} {col : Nat} (hc : col < 64) :
    w &&& (1#64 <<< col) ≠ 0#64 ↔ w.getLsbD col = true := by
  constructor
  · intro h
    by_contra hw
    have hw' : w.getLsbD col = false := by simpa using hw
    refine h (BitVec.eq_of_getLsbD_eq fun j hj => ?_)
    rw [BitVec.getLsbD_and, getLsbD_one_shiftLeft hj]
    by_cases hjc : j = col
    · simp [hjc, hw']
    · simp [hjc]
  · intro hw h
    have := congrArg (fun v => v.getLsbD col) h
    simp only [BitVec.getLsbD_and, getLsbD_one_shiftLeft hc, hw] at this
    simp at this

theorem isFrameUsed_ne_zero_iff {a : Bitmap} {n : Nat} : isFrameUsed a n ≠ 0#64 ↔ IsFree a n :=
  and_bit_ne_zero (Nat.mod_lt _ (by decide))

/-- The first success of a loop over `0, 1, …, n - 1`. -/
theorem findSome?_range {β : Type} {f : Nat → Option β} {n : Nat} {b : β} :
    (List.range n).findSome? f = some b ↔ ∃ i < n, f i = some b ∧ ∀ j < i, f j = none := by
  induction n with
  | zero => simp
  | succ n ih =>
    rw [List.range_succ, List.findSome?_append, Option.or_eq_some_iff]
    constructor
    · rintro (h | ⟨hnone, h⟩)
      · obtain ⟨i, hi, hf, hj⟩ := ih.mp h
        exact ⟨i, by omega, hf, hj⟩
      · refine ⟨n, by omega, by simpa using h, fun j hj => ?_⟩
        exact List.findSome?_eq_none_iff.mp hnone j (List.mem_range.mpr hj)
    · rintro ⟨i, hi, hf, hj⟩
      by_cases hin : i = n
      · subst hin
        refine Or.inr ⟨List.findSome?_eq_none_iff.mpr fun j hj' => ?_, by simpa using hf⟩
        exact hj j (List.mem_range.mp hj')
      · exact Or.inl (ih.mpr ⟨i, by omega, hf, hj⟩)

/-- The inner loop of `getFirstFrame`: the lowest set bit of one row. -/
theorem firstInRow_eq_some {a : Bitmap} {row n : Nat} :
    ((List.range 64).findSome? fun col =>
        if a row &&& (1#64 <<< col) ≠ 0#64 then some (row * 64 + col) else none) = some n ↔
      n / 64 = row ∧ IsFree a n ∧ ∀ m < n, m / 64 = row → ¬ IsFree a m := by
  rw [findSome?_range]
  constructor
  · rintro ⟨col, hcol, hf, hmin⟩
    split at hf
    · next hbit =>
      obtain rfl := Option.some.inj hf
      have hdiv : (row * 64 + col) / 64 = row := by omega
      have hmod : (row * 64 + col) % 64 = col := by omega
      refine ⟨hdiv, ?_, fun m hm hrow hfree => ?_⟩
      · unfold IsFree
        rw [hdiv, hmod]
        exact (and_bit_ne_zero hcol).mp hbit
      · have hlt : m % 64 < col := by omega
        have := hmin (m % 64) hlt
        unfold IsFree at hfree
        rw [hrow] at hfree
        rw [if_pos ((and_bit_ne_zero (by omega)).mpr hfree)] at this
        cases this
    · cases hf
  · rintro ⟨rfl, hfree, hmin⟩
    refine ⟨n % 64, by omega, ?_, fun j hj => ?_⟩
    · rw [if_pos ((and_bit_ne_zero (by omega)).mpr hfree)]
      congr 1
      omega
    · refine if_neg fun hbit => ?_
      refine hmin (n / 64 * 64 + j) (by omega) (by omega) ?_
      unfold IsFree
      rw [show (n / 64 * 64 + j) / 64 = n / 64 by omega,
        show (n / 64 * 64 + j) % 64 = j by omega]
      exact (and_bit_ne_zero (by omega)).mp hbit

/-- The frame numbers the array has a bit for. -/
def maxFrames : Nat := maxBitmapRows * 64

/-- **`getFirstFrame` returns the lowest free frame.** -/
theorem getFirstFrame_eq_some_iff {a : Bitmap} {n : Nat} :
    getFirstFrame a = some n ↔ n < maxFrames ∧ IsFree a n ∧ ∀ m < n, ¬ IsFree a m := by
  unfold getFirstFrame
  rw [findSome?_range]
  -- an all-zero row has no free frame, so the test on the row only skips the inner loop
  have hrow : ∀ {m : Nat}, IsFree a m → a (m / 64) ≠ 0#64 := by
    intro m hm h0
    unfold IsFree at hm
    rw [h0] at hm
    simp at hm
  constructor
  · rintro ⟨row, hlt, hf, hmin⟩
    split at hf
    · obtain ⟨rfl, hfree, hless⟩ := firstInRow_eq_some.mp hf
      refine ⟨by simp only [maxFrames]; omega, hfree, fun m hm hmfree => ?_⟩
      by_cases hsame : m / 64 = n / 64
      · exact hless m hm hsame hmfree
      · have hnone := hmin (m / 64) (by omega)
        rw [if_pos (hrow hmfree)] at hnone
        have := List.findSome?_eq_none_iff.mp hnone (m % 64) (List.mem_range.mpr (by omega))
        rw [if_pos ((and_bit_ne_zero (by omega)).mpr hmfree)] at this
        cases this
    · cases hf
  · rintro ⟨hn, hfree, hmin⟩
    refine ⟨n / 64, by simp only [maxFrames] at hn; omega, ?_, fun j hj => ?_⟩
    · rw [if_pos (hrow hfree)]
      exact firstInRow_eq_some.mpr ⟨rfl, hfree, fun m hm _ => hmin m hm⟩
    · by_cases h0 : a j ≠ 0#64
      · rw [if_pos h0]
        refine List.findSome?_eq_none_iff.mpr fun col hcol => if_neg fun hbit => ?_
        have hcol' := List.mem_range.mp hcol
        refine hmin (j * 64 + col) (by omega) ?_
        unfold IsFree
        rw [show (j * 64 + col) / 64 = j by omega, show (j * 64 + col) % 64 = col by omega]
        exact (and_bit_ne_zero hcol').mp hbit
      · rw [if_neg h0]

theorem getFirstFrame_eq_none_iff {a : Bitmap} :
    getFirstFrame a = none ↔ ∀ m < maxFrames, ¬ IsFree a m := by
  constructor
  · intro h m hm hfree
    -- the least free frame would have been found
    classical
    have hex : ∃ m, IsFree a m := ⟨m, hfree⟩
    have hle : Nat.find hex ≤ m := Nat.find_min' hex hfree
    have hsome : getFirstFrame a = some (Nat.find hex) :=
      getFirstFrame_eq_some_iff.mpr ⟨by omega, Nat.find_spec hex, fun _ h' => Nat.find_min hex h'⟩
    rw [h] at hsome
    cases hsome
  · intro h
    cases hf : getFirstFrame a with
    | none => rfl
    | some n =>
      obtain ⟨hn, hfree, -⟩ := getFirstFrame_eq_some_iff.mp hf
      exact absurd hfree (h n hn)

/-! ### The bitmap after boot -/

theorem isFree_foldl_markasUsed {a : Bitmap} {l : List Nat} {m : Nat} :
    IsFree (l.foldl markasUsed a) m ↔ m ∉ l ∧ IsFree a m := by
  induction l generalizing a with
  | nil => simp
  | cons n l ih =>
    rw [List.foldl_cons, ih, isFree_markasUsed, List.mem_cons]
    tauto

theorem isFree_foldl_markasFree {a : Bitmap} {l : List Nat} {bound m : Nat} :
    IsFree (l.foldl (fun a n => if n ≤ bound then a else markasFree a n) a) m ↔
      (m ∈ l ∧ bound < m) ∨ IsFree a m := by
  induction l generalizing a with
  | nil => simp
  | cons n l ih =>
    rw [List.foldl_cons, ih, List.mem_cons]
    by_cases hn : n ≤ bound
    · rw [if_pos hn]
      constructor
      · rintro (⟨hm, hb⟩ | h)
        · exact Or.inl ⟨Or.inr hm, hb⟩
        · exact Or.inr h
      · rintro (⟨rfl | hm, hb⟩ | h)
        · omega
        · exact Or.inl ⟨hm, hb⟩
        · exact Or.inr h
    · rw [if_neg hn, isFree_markasFree]
      constructor
      · rintro (⟨hm, hb⟩ | rfl | h)
        · exact Or.inl ⟨Or.inr hm, hb⟩
        · exact Or.inl ⟨Or.inl rfl, by omega⟩
        · exact Or.inr h
      · rintro (⟨rfl | hm, hb⟩ | h)
        · exact Or.inr (Or.inl rfl)
        · exact Or.inl ⟨hm, hb⟩
        · exact Or.inr (Or.inr h)

theorem isFree_initBitmap {s : PhyMem} {start stop m : Nat} :
    IsFree (initBitmap s start stop).availFrames m ↔
      256 ≤ m ∧ ((start / 0x1000 ≤ m ∧ m ≤ stop / 0x1000 ∧ s.kerPhysfree / 0x1000 < m) ∨
        IsFree s.availFrames m) := by
  simp only [initBitmap]
  rw [isFree_foldl_markasUsed, isFree_foldl_markasFree, List.mem_range, List.mem_range'_1]
  constructor
  · rintro ⟨h, ⟨⟨h₁, h₂⟩, h₃⟩ | hfree⟩
    · exact ⟨by omega, Or.inl ⟨h₁, by omega, h₃⟩⟩
    · exact ⟨by omega, Or.inr hfree⟩
  · rintro ⟨h, ⟨h₁, h₂, h₃⟩ | hfree⟩
    · exact ⟨by omega, Or.inl ⟨⟨h₁, by omega⟩, h₃⟩⟩
    · exact ⟨by omega, Or.inr hfree⟩

theorem isFree_allocateBitmapMem {s : PhyMem} {m : Nat} (hm : m < maxFrames) :
    ¬ IsFree (allocateBitmapMem s).availFrames m := by
  have hzero : ∀ (n row : Nat) (a : Bitmap), row < n →
      (List.range n).foldl (fun a i => Function.update a i 0#64) a row = 0#64 := by
    intro n
    induction n with
    | zero => intro row a h; omega
    | succ n ih =>
      intro row a h
      rw [List.range_succ, List.foldl_append]
      by_cases hrow : row = n
      · simp [hrow]
      · simp only [List.foldl_cons, List.foldl_nil]
        rw [Function.update_of_ne hrow]
        exact ih row a (by omega)
  unfold IsFree allocateBitmapMem
  dsimp only
  rw [hzero maxBitmapRows (m / 64) _ (by simp only [maxFrames] at hm; omega)]
  simp

/-- Frame `m` belongs to a region as `initBitmap` counts frames: from the frame of the first
byte up to the frame of the end address. -/
def InRegion (regions : List (Nat × Nat)) (m : Nat) : Prop :=
  ∃ r ∈ regions, r.1 / 0x1000 ≤ m ∧ m ≤ r.2 / 0x1000

@[simp] theorem initBitmap_kerPhysfree (s : PhyMem) (start stop : Nat) :
    (initBitmap s start stop).kerPhysfree = s.kerPhysfree := by
  simp only [initBitmap]

theorem foldl_initBitmap_kerPhysfree (l : List (Nat × Nat)) (s : PhyMem) :
    (l.foldl (fun s r => initBitmap s r.1 r.2) s).kerPhysfree = s.kerPhysfree := by
  induction l generalizing s with
  | nil => rfl
  | cons r l ih => rw [List.foldl_cons, ih, initBitmap_kerPhysfree]

/-- The regions of the memory map on top of an allocator without free frames. -/
theorem isFree_foldl_initBitmap {l : List (Nat × Nat)} {s : PhyMem} {m : Nat}
    (hs : ¬ IsFree s.availFrames m) :
    IsFree (l.foldl (fun s r => initBitmap s r.1 r.2) s).availFrames m ↔
      InRegion l m ∧ 256 ≤ m ∧ s.kerPhysfree / 0x1000 < m := by
  induction l using List.reverseRecOn with
  | nil => simp [InRegion, hs]
  | append_singleton l r ih =>
    rw [List.foldl_append, List.foldl_cons, List.foldl_nil, isFree_initBitmap, ih,
      foldl_initBitmap_kerPhysfree]
    constructor
    · rintro ⟨h, ⟨h₁, h₂, h₃⟩ | ⟨⟨q, hq, hqm⟩, -, h₃⟩⟩
      · exact ⟨⟨r, by simp, h₁, h₂⟩, h, h₃⟩
      · exact ⟨⟨q, by simp [hq], hqm⟩, h, h₃⟩
    · rintro ⟨⟨q, hq, hqm⟩, h, h₃⟩
      rcases List.mem_append.mp hq with hq | hq
      · exact ⟨h, Or.inr ⟨⟨q, hq, hqm⟩, h, h₃⟩⟩
      · obtain rfl := List.mem_singleton.mp hq
        exact ⟨h, Or.inl ⟨hqm.1, hqm.2, h₃⟩⟩

/-- **The bitmap after boot.** A frame of the array is free exactly when some region has it, it
lies above the frame of `KER_PHYSFREE` and it is not in the first megabyte. -/
theorem isFree_boot {s : PhyMem} {physbase physfree : Nat} {regions : List (Nat × Nat)} {m : Nat}
    (hm : m < maxFrames) :
    IsFree (boot s physbase physfree regions).availFrames m ↔
      InRegion regions m ∧ 256 ≤ m ∧
        (boot s physbase physfree regions).kerPhysfree / 0x1000 < m := by
  unfold boot
  rw [foldl_initBitmap_kerPhysfree]
  refine isFree_foldl_initBitmap ?_
  simp only [allocateAHCI]
  exact isFree_allocateBitmapMem hm

/-! ### Runs of the allocator -/

/-- The bitmap together with the pages handed out and not given back yet. -/
structure AllocState where
  availFrames : Bitmap
  held : List Nat

inductive AllocEvent
  | alloc
  | dealloc (pageAddr : Nat)

def allocStep (s : AllocState) : AllocEvent → Option AllocState
  | .alloc =>
    let (page, a) := pageAllocator s.availFrames
    some ⟨a, if page = 0 then s.held else page :: s.held⟩
  | .dealloc pageAddr => some ⟨pageDeAllocator s.availFrames pageAddr, s.held.erase pageAddr⟩

/-- Only pages currently held are released. -/
def releasesHeld (s : AllocState) : AllocEvent → Prop
  | .alloc => True
  | .dealloc pageAddr => pageAddr ∈ s.held

/-- **What the allocator is for**: frame `m` may be handed out when the memory map has it, it is
above the first megabyte and above the frame `top` of `KER_PHYSFREE`, and nobody holds it. -/
def FreeFrame (regions : List (Nat × Nat)) (top : Nat) (held : List Nat) (m : Nat) : Prop :=
  InRegion regions m ∧ 256 ≤ m ∧ top < m ∧ m * 0x1000 ∉ held

/-- The bitmap represents the abstract set of free frames, and the pages held are distinct
frames of the memory map outside the reserved zones. -/
structure AllocInv (regions : List (Nat × Nat)) (top : Nat) (s : AllocState) : Prop where
  bits : ∀ m < maxFrames, IsFree s.availFrames m ↔ FreeFrame regions top s.held m
  nodup : s.held.Nodup
  frames : ∀ p ∈ s.held, ∃ m, p = m * 0x1000 ∧ FreeFrame regions top [] m

theorem pageAllocator_of_getFirstFrame {a : Bitmap} {n : Nat} (h : getFirstFrame a = some n) :
    pageAllocator a = (n * 0x1000, markasUsed a n) := by
  unfold pageAllocator
  rw [h]

/-- The allocation step hands out the lowest free frame or, with `NULL`, nothing. -/
theorem pageAllocator_cases (a : Bitmap) :
    ((∀ m < maxFrames, ¬ IsFree a m) ∧ pageAllocator a = (0, a)) ∨
    ∃ n < maxFrames, IsFree a n ∧ (∀ m < n, ¬ IsFree a m) ∧
      pageAllocator a = (n * 0x1000, markasUsed a n) := by
  cases h : getFirstFrame a with
  | none =>
    refine Or.inl ⟨getFirstFrame_eq_none_iff.mp h, ?_⟩
    unfold pageAllocator
    rw [h]
  | some n =>
    obtain ⟨hn, hfree, hmin⟩ := getFirstFrame_eq_some_iff.mp h
    exact Or.inr ⟨n, hn, hfree, hmin, pageAllocator_of_getFirstFrame h⟩

theorem AllocInv.step {regions : List (Nat × Nat)} {top : Nat} {s s' : AllocState}
    {e : AllocEvent} (h : AllocInv regions top s) (hok : releasesHeld s e)
    (hs : allocStep s e = some s') : AllocInv regions top s' := by
  cases e with
  | alloc =>
    rcases pageAllocator_cases s.availFrames with ⟨-, heq⟩ | ⟨n, hn, hfree, -, heq⟩
    · simp only [allocStep, heq, if_true, Option.some.injEq] at hs
      exact hs ▸ h
    · obtain ⟨hreg, h256, htop, hheld⟩ := (h.bits n hn).mp hfree
      have hne : n * 0x1000 ≠ 0 := by omega
      simp only [allocStep, heq, if_neg hne, Option.some.injEq] at hs
      subst hs
      refine ⟨fun m hm => ?_, List.nodup_cons.mpr ⟨hheld, h.nodup⟩, ?_⟩
      · rw [isFree_markasUsed, h.bits m hm]
        simp only [FreeFrame, List.mem_cons, not_or]
        constructor
        · rintro ⟨hmn, h₁, h₂, h₃, h₄⟩
          exact ⟨h₁, h₂, h₃, fun heq => hmn (Nat.eq_of_mul_eq_mul_right (by decide) heq), h₄⟩
        · rintro ⟨h₁, h₂, h₃, h₄, h₅⟩
          exact ⟨fun hmn => h₄ (by rw [hmn]), h₁, h₂, h₃, h₅⟩
      · intro p hp
        rcases List.mem_cons.mp hp with rfl | hp
        · exact ⟨n, rfl, hreg, h256, htop, by simp⟩
        · exact h.frames p hp
  | dealloc p =>
    simp only [allocStep, Option.some.injEq] at hs
    subst hs
    obtain ⟨n, rfl, hreg, h256, htop, -⟩ := h.frames p hok
    refine ⟨fun m hm => ?_, h.nodup.erase _, fun q hq => h.frames q (List.mem_of_mem_erase hq)⟩
    simp only [pageDeAllocator]
    rw [isFree_markasFree, h.bits m hm, Nat.mul_div_cancel _ (by decide)]
    simp only [FreeFrame, h.nodup.mem_erase_iff, not_and]
    constructor
    · rintro (rfl | ⟨h₁, h₂, h₃, h₄⟩)
      · exact ⟨hreg, h256, htop, fun hne => absurd rfl hne⟩
      · exact ⟨h₁, h₂, h₃, fun _ => h₄⟩
    · rintro ⟨h₁, h₂, h₃, h₄⟩
      by_cases hmn : m = n
      · exact Or.inl hmn
      · exact Or.inr ⟨h₁, h₂, h₃, h₄ (by omega)⟩

theorem allocInv_boot (s : PhyMem) (physbase physfree : Nat) (regions : List (Nat × Nat)) :
    AllocInv regions ((boot s physbase physfree regions).kerPhysfree / 0x1000)
      ⟨(boot s physbase physfree regions).availFrames, []⟩ where
  bits m hm := by
    rw [isFree_boot hm]
    simp [FreeFrame]
  nodup := List.nodup_nil
  frames := by simp

/-- What the next call of `pageAllocator` does in state `s`. -/
structure AllocSafe (regions : List (Nat × Nat)) (top : Nat) (s : AllocState) : Prop where
  /-- A page that is held is not handed out again. -/
  exclusive : (pageAllocator s.availFrames).1 ≠ 0 → (pageAllocator s.availFrames).1 ∉ s.held
  /-- Neither the first megabyte nor a page up to the one of `KER_PHYSFREE` is handed out. -/
  reserved : (pageAllocator s.availFrames).1 ≠ 0 →
    0x100000 ≤ (pageAllocator s.availFrames).1 ∧ top < (pageAllocator s.availFrames).1 / 0x1000
  /-- The page handed out is the lowest free frame, in the bitmap and in the abstract set. -/
  lowest : (pageAllocator s.availFrames).1 ≠ 0 → ∃ n, (pageAllocator s.availFrames).1 = n * 0x1000 ∧
    IsFree s.availFrames n ∧ FreeFrame regions top s.held n ∧
    ∀ m < n, ¬ IsFree s.availFrames m ∧ ¬ FreeFrame regions top s.held m
  /-- `NULL` is returned exactly when no frame is free. -/
  null : (pageAllocator s.availFrames).1 = 0 ↔ ∀ m, ¬ FreeFrame regions top s.held m

/-- **Frame allocator safety.** After boot on any memory map whose regions end below 256 MiB,
and after any calls of `pageAllocator` and `pageDeAllocator` that release held pages only. -/
theorem allocator_safe (s : PhyMem) (physbase physfree : Nat) (regions : List (Nat × Nat))
    (hend : ∀ r ∈ regions, r.2 < 0x10000000) (es : List AllocEvent) (t : AllocState)
    (hr : Runs.Run allocStep releasesHeld
      ⟨(boot s physbase physfree regions).availFrames, []⟩ es t) :
    AllocSafe regions ((boot s physbase physfree regions).kerPhysfree / 0x1000) t := by
  have h := hr.invariant (allocInv_boot s physbase physfree regions)
    fun _ _ _ hI hok hs => hI.step hok hs
  -- every frame of the memory map has a bit in the array
  have hmap : ∀ m, InRegion regions m → m < maxFrames := by
    rintro m ⟨r, hr, -, hm⟩
    have := hend r hr
    simp only [maxFrames, maxBitmapRows]
    omega
  rcases pageAllocator_cases t.availFrames with ⟨hnone, heq⟩ | ⟨n, hn, hfree, hmin, heq⟩
  · refine ⟨by simp [heq], by simp [heq], by simp [heq], ?_⟩
    simp only [heq, true_iff]
    intro m hm
    exact hnone m (hmap m hm.1) ((h.bits m (hmap m hm.1)).mpr hm)
  · have habs := (h.bits n hn).mp hfree
    have hne : n * 0x1000 ≠ 0 := by
      have := habs.2.1
      omega
    refine ⟨?_, ?_, ?_, ?_⟩
    · intro _
      rw [heq]
      exact habs.2.2.2
    · intro _
      rw [heq]
      have h256 := habs.2.1
      have htop := habs.2.2.1
      exact ⟨by omega, by omega⟩
    · intro _
      refine ⟨n, by rw [heq], hfree, habs, fun m hm => ⟨hmin m hm, fun hm' => ?_⟩⟩
      exact hmin m hm ((h.bits m (hmap m hm'.1)).mpr hm')
    · rw [heq]
      exact ⟨fun h0 => absurd h0 hne, fun hno => absurd habs (hno n)⟩

/-- A machine with one region of sixteen frames above the kernel. -/
def bootOneRegion : PhyMem :=
  boot ⟨fun _ => 0#64, 0, 0, 0, 0⟩ 0x200000 0x210000 [(0x400000, 0x40ffff)]

theorem pageAllocator_bootOneRegion : (pageAllocator bootOneRegion.availFrames).1 ≠ 0 := by
  have hbit : ∀ m < maxFrames, IsFree bootOneRegion.availFrames m ↔
      InRegion [(0x400000, 0x40ffff)] m ∧ 256 ≤ m ∧ bootOneRegion.kerPhysfree / 0x1000 < m :=
    fun m hm => isFree_boot hm
  have hk : bootOneRegion.kerPhysfree = 0x230000 := by
    unfold bootOneRegion boot
    rw [foldl_initBitmap_kerPhysfree]
    decide
  rcases pageAllocator_cases bootOneRegion.availFrames with ⟨hnone, -⟩ | ⟨n, hn, hfree, -, heq⟩
  · refine absurd ((hbit 0x400 (by decide)).mpr ⟨?_, by decide, by rw [hk]; decide⟩)
      (hnone 0x400 (by decide))
    exact ⟨_, List.mem_singleton_self _, by decide, by decide⟩
  · have := ((hbit n hn).mp hfree).2.1
    rw [heq]
    dsimp only
    omega

/-- One page is taken from the sixteen-frame machine and given back. -/
theorem allocator_safe_one_region :
    AllocSafe [(0x400000, 0x40ffff)] (bootOneRegion.kerPhysfree / 0x1000)
      ⟨pageDeAllocator (pageAllocator bootOneRegion.availFrames).2
        (pageAllocator bootOneRegion.availFrames).1, []⟩ := by
  have h0 := pageAllocator_bootOneRegion
  refine allocator_safe ⟨fun _ => 0#64, 0, 0, 0, 0⟩ 0x200000 0x210000 [(0x400000, 0x40ffff)]
    (by simp) [.alloc, .dealloc (pageAllocator bootOneRegion.availFrames).1] _
    (@Runs.Run.cons _ _ _ _ _ ⟨(pageAllocator bootOneRegion.availFrames).2,
      [(pageAllocator bootOneRegion.availFrames).1]⟩ _ _ _ trivial ?_
      (.cons (List.mem_singleton_self _) ?_ (.nil _)))
  · simp only [allocStep]
    exact congrArg some (congrArg (AllocState.mk _) (if_neg h0))
  · simp [allocStep]

end Sbunix
