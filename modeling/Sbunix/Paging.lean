import Sbunix.Lib.Bits
import Sbunix.Lib.Placement
import Sbunix.Defs

/-!
# Page tables

`sys/virtualMemory.c` and the page-table walks of `sys/task.c`: `mapPageForUser` and
`forceMapPage` enter a translation into a four-level tree and allocate the tables that are
missing on the way, `getPhysicalPageAddr` reads a translation back, `markPageAsRW` changes its
writable bit.

The tree is described by a *typing* `Γ` of physical frames: every table frame carries its root
and the path of slots that leads to it, so that two slots never share a table (`Typed`, an
instance of `Placement.Placed`). The operations are specified by what they do to the
translations and by the relation `Grows`, which bounds everything else they touch.
-/

namespace Sbunix

open ByteMem Placement

/-! ### Entries -/

/-- `get_PML4_INDEX`. -/
def pml4Index (v : Nat) : Nat := (v >>> 39) &&& 0x1FF

/-- `get_PDPT_INDEX`. -/
def pdptIndex (v : Nat) : Nat := (v >>> 30) &&& 0x1FF

/-- `get_PDT_INDEX`. -/
def pdtIndex (v : Nat) : Nat := (v >>> 21) &&& 0x1FF

/-- `get_PT_INDEX`. -/
def ptIndex (v : Nat) : Nat := (v >>> 12) &&& 0x1FF

/-- `PRESENT`. -/
def present : Nat := 0x1

/-- `WRITEABLE`. -/
def writeable : Nat := 0x2

/-- `MAKERDONLY`. -/
def makeRdOnly : Nat := 0xFFFFFFFFFFFFFFFD

/-- `USER`. -/
def user : Nat := 0x4

/-- `FRAME`. -/
def frame : Nat := 0xFFFFFFFFFFFFF000

/-- Entry `i` of the table at `table`. -/
def entry (m : Mem) (table i : Nat) : Nat := read64 m (table + 8 * i)

namespace Phys

/-- One level of the walk of `mapPageForUser` and its siblings: the table that entry `i` of
`table` points to, which is allocated, cleared and entered when there is none. -/
def nextTable (s : Phys) (table i flag : Nat) : Nat × Phys :=
  let e := entry s.mem table i
  if e &&& present ≠ 0 then (e &&& frame, s)
  else
    -- the present bit of an entry is all that is looked at
    let next := s.pageAllocator
    (next.1, (next.2.memset next.1).store64 (table + 8 * i)
      (next.1 ||| present ||| writeable ||| flag))

/-- The common body of `mapPageForUser` and `forceMapPage`; `flag` is what both add to every
entry they write. -/
def mapWith (s : Phys) (flag vAddr phyAddr pml4 : Nat) : Phys :=
  let pdpt := s.nextTable pml4 (pml4Index vAddr) flag
  let pdt := pdpt.2.nextTable pdpt.1 (pdptIndex vAddr) flag
  let pt := pdt.2.nextTable pdt.1 (pdtIndex vAddr) flag
  pt.2.store64 (pt.1 + 8 * ptIndex vAddr) (phyAddr ||| present ||| writeable ||| flag)

def mapPageForUser (s : Phys) (vAddr phyAddr pml4 : Nat) : Phys :=
  s.mapWith user vAddr phyAddr pml4

def forceMapPage (s : Phys) (vAddr phyAddr pml4 : Nat) (forUser : Bool) : Phys :=
  s.mapWith (if forUser then user else 0) vAddr phyAddr pml4

/-- The page table under `pml4` that holds the entry of `vAddr`, if all three tables above it
are present: the nested conditionals of `getPhysicalPageAddr` and `markPageAsRW`. -/
def pageTable (s : Phys) (vAddr pml4 : Nat) : Option Nat :=
  let pmlEntry := entry s.mem pml4 (pml4Index vAddr)
  if pmlEntry &&& present ≠ 0 then
    let pdptEntry := entry s.mem (pmlEntry &&& frame) (pdptIndex vAddr)
    if pdptEntry &&& present ≠ 0 then
      let pdtEntry := entry s.mem (pdptEntry &&& frame) (pdtIndex vAddr)
      if pdtEntry &&& present ≠ 0 then some (pdtEntry &&& frame) else none
    else none
  else none

/-- `getPhysicalPageAddr`; the `-1` it returns without a page table is `2 ^ 64 - 1`. -/
def getPhysicalPageAddr (s : Phys) (vAddr cr3 : Nat) : Nat :=
  match s.pageTable vAddr cr3 with
  | some pt => entry s.mem pt (ptIndex vAddr)
  | none => 2 ^ 64 - 1

/-- `markPageAsRW`: read-only when `rw` is set, else writable. -/
def markPageAsRW (s : Phys) (vAddr cr3 : Nat) (rw : Bool) : Phys :=
  match s.pageTable vAddr cr3 with
  | some pt =>
    let e := entry s.mem pt (ptIndex vAddr)
    s.store64 (pt + 8 * ptIndex vAddr) (if rw then e &&& makeRdOnly else e ||| writeable)
  | none => s

/-- `getNewPML4ForUser`, run under the page tables at `cr3`: entry 511 is shared. -/
def getNewPML4ForUser (s : Phys) (cr3 : Nat) : Nat × Phys :=
  let new := s.kmalloc
  (new.1, new.2.store64 (new.1 + 8 * 511) (entry new.2.mem cr3 511))

end Phys

/-! ### Arithmetic of entries -/

theorem pml4Index_lt (v : Nat) : pml4Index v < 512 := by
  unfold pml4Index
  rw [show 0x1FF = 2 ^ 9 - 1 from rfl, Bits.and_lowMask]
  exact Nat.mod_lt _ (by decide)

theorem pdptIndex_lt (v : Nat) : pdptIndex v < 512 := by
  unfold pdptIndex
  rw [show 0x1FF = 2 ^ 9 - 1 from rfl, Bits.and_lowMask]
  exact Nat.mod_lt _ (by decide)

theorem pdtIndex_lt (v : Nat) : pdtIndex v < 512 := by
  unfold pdtIndex
  rw [show 0x1FF = 2 ^ 9 - 1 from rfl, Bits.and_lowMask]
  exact Nat.mod_lt _ (by decide)

theorem ptIndex_lt (v : Nat) : ptIndex v < 512 := by
  unfold ptIndex
  rw [show 0x1FF = 2 ^ 9 - 1 from rfl, Bits.and_lowMask]
  exact Nat.mod_lt _ (by decide)

theorem pml4Index_eq (v : Nat) : pml4Index v = v / 2 ^ 39 % 512 := by
  unfold pml4Index
  rw [show 0x1FF = 2 ^ 9 - 1 from rfl, Bits.and_lowMask, Nat.shiftRight_eq_div_pow]
  rfl

theorem pdptIndex_eq (v : Nat) : pdptIndex v = v / 2 ^ 30 % 512 := by
  unfold pdptIndex
  rw [show 0x1FF = 2 ^ 9 - 1 from rfl, Bits.and_lowMask, Nat.shiftRight_eq_div_pow]
  rfl

theorem pdtIndex_eq (v : Nat) : pdtIndex v = v / 2 ^ 21 % 512 := by
  unfold pdtIndex
  rw [show 0x1FF = 2 ^ 9 - 1 from rfl, Bits.and_lowMask, Nat.shiftRight_eq_div_pow]
  rfl

theorem ptIndex_eq (v : Nat) : ptIndex v = v / 2 ^ 12 % 512 := by
  unfold ptIndex
  rw [show 0x1FF = 2 ^ 9 - 1 from rfl, Bits.and_lowMask, Nat.shiftRight_eq_div_pow]
  rfl

/-- The four indices are the number of the 48-bit page. -/
theorem same_indices_iff (v w : Nat) :
    (pml4Index v = pml4Index w ∧ pdptIndex v = pdptIndex w ∧ pdtIndex v = pdtIndex w ∧
      ptIndex v = ptIndex w) ↔ v % 2 ^ 48 / 4096 = w % 2 ^ 48 / 4096 := by
  simp only [pml4Index_eq, pdptIndex_eq, pdtIndex_eq, ptIndex_eq]
  omega

theorem and_present (e : Nat) : e &&& present = e % 2 := by
  rw [present, show 0x1 = 2 ^ 1 - 1 from rfl, Bits.and_lowMask, Nat.pow_one]

theorem and_frame {e : Nat} (he : e < 2 ^ 64) : e &&& frame = e / 4096 * 4096 := by
  rw [frame, show 0xFFFFFFFFFFFFF000 = (2 ^ 52 - 1) <<< 12 by decide, Bits.and_highMask he]
  rfl

theorem entry_lt (m : Mem) (table i : Nat) : entry m table i < 2 ^ 64 := read64_lt _ _

/-- The flags of an entry are added to the page address. -/
theorem or_flags {p flag : Nat} (hp : p % 4096 = 0) (hf : flag < 4096) :
    p ||| present ||| writeable ||| flag = p + (3 ||| flag) := by
  -- the flags are below the address of a page
  have h3 : 3 ||| flag < 2 ^ 12 := Nat.or_lt_two_pow (by decide) hf
  rw [Nat.or_assoc, Nat.or_assoc, show present ||| (writeable ||| flag) = 3 ||| flag by
    rw [← Nat.or_assoc]; rfl]
  obtain ⟨c, rfl⟩ : ∃ c, p = c * 2 ^ 12 := ⟨p / 4096, by omega⟩
  exact Bits.or_low h3

theorem entry_congr {m m' : Mem} {table i : Nat} (hi : i < 512)
    (h : ∀ x, table ≤ x → x < table + 4096 → m x = m' x) :
    entry m table i = entry m' table i :=
  read64_congr fun x hx hx' => h x (by omega) (by omega)

theorem entry_store_self (s : Phys) (table i : Nat) {v : Nat} (hv : v < 2 ^ 64) :
    entry (s.store64 (table + 8 * i) v).mem table i = v :=
  read64_write64_self _ _ hv

/-- A store into one slot leaves every other slot alone. -/
theorem entry_store_other (s : Phys) {table table' i i' v : Nat} (ht : table % 4096 = 0)
    (ht' : table' % 4096 = 0) (hi : i < 512) (hi' : i' < 512) (hne : (table', i') ≠ (table, i)) :
    entry (s.store64 (table + 8 * i) v).mem table' i' = entry s.mem table' i' := by
  refine read64_write64_of_disjoint _ ?_
  -- another slot of the table, or another page
  by_cases h : table' = table
  · have : i' ≠ i := fun h' => hne (by rw [h, h'])
    omega
  · omega

theorem store64_mem_of_out (s : Phys) {table i v x : Nat} (hi : i < 512)
    (hx : ¬ (table ≤ x ∧ x < table + 4096)) : (s.store64 (table + 8 * i) v).mem x = s.mem x :=
  write64_of_out (by omega)

/-- The entry of `v` under `cr3`, if there is a page table for it. -/
def Phys.leaf (s : Phys) (v cr3 : Nat) : Option Nat :=
  (s.pageTable v cr3).map fun pt => entry s.mem pt (ptIndex v)

theorem getPhysicalPageAddr_eq (s : Phys) (v cr3 : Nat) :
    s.getPhysicalPageAddr v cr3 = (s.leaf v cr3).getD (2 ^ 64 - 1) := by
  unfold Phys.getPhysicalPageAddr Phys.leaf
  cases s.pageTable v cr3 <;> rfl

/-- A translation depends on the bytes of memory only. -/
theorem getPhysicalPageAddr_congr {s t : Phys} (h : s.mem = t.mem) (v cr3 : Nat) :
    s.getPhysicalPageAddr v cr3 = t.getPhysicalPageAddr v cr3 := by
  unfold Phys.getPhysicalPageAddr Phys.pageTable
  rw [h]

theorem Phys.leaf_congr {s t : Phys} (h : t.mem = s.mem) (v cr3 : Nat) :
    t.leaf v cr3 = s.leaf v cr3 := by
  simp only [Phys.leaf, Phys.pageTable, h]

/-! ### The allocator and `memset` -/

namespace Phys

@[simp] theorem memset_availFrames (s : Phys) (f : Nat) :
    (s.memset f).availFrames = s.availFrames := by simp only [memset]

@[simp] theorem memset_exhausted (s : Phys) (f : Nat) :
    (s.memset f).exhausted = s.exhausted := by simp only [memset]

@[simp] theorem store64_availFrames (s : Phys) (a v : Nat) :
    (s.store64 a v).availFrames = s.availFrames := by simp only [store64]

@[simp] theorem store64_exhausted (s : Phys) (a v : Nat) :
    (s.store64 a v).exhausted = s.exhausted := by simp only [store64]

@[simp] theorem store64_tasks (s : Phys) (a v : Nat) : (s.store64 a v).tasks = s.tasks := by
  simp only [store64]

@[simp] theorem memcpy_exhausted (s : Phys) (src dest n : Nat) :
    (s.memcpy src dest n).exhausted = s.exhausted := by simp only [memcpy]

theorem memcpy_mem (s : Phys) (src dest n : Nat) :
    (s.memcpy src dest n).mem = copy s.mem src dest n := by simp only [memcpy]

@[simp] theorem pageAllocator_mem (s : Phys) : s.pageAllocator.2.mem = s.mem := by
  simp only [pageAllocator]

@[simp] theorem pageAllocator_tasks (s : Phys) : s.pageAllocator.2.tasks = s.tasks := by
  simp only [pageAllocator]

theorem memset_mem (s : Phys) (f x : Nat) :
    (s.memset f).mem x = if f ≤ x ∧ x < f + 4096 then 0 else s.mem x := by
  simp only [memset, clear_apply, Nat.reduceMul]

theorem memset_tasks_of_ne (s : Phys) {f g : Nat} (h : g ≠ f) :
    (s.memset f).tasks (kernbase + g) = s.tasks (kernbase + g) :=
  Function.update_of_ne (fun hg => h (Nat.add_left_cancel hg)) _ _

theorem entry_memset (s : Phys) {f i : Nat} (hi : i < 512) : entry (s.memset f).mem f i = 0 := by
  simp only [memset, entry]
  exact read64_clear s.mem (by omega) (by omega)

/-- **`pageAllocator`, as long as memory lasts**: a free page is taken. -/
theorem pageAllocator_spec {s : Phys} (h : s.pageAllocator.2.exhausted = false) :
    s.exhausted = false ∧ s.pageAllocator.1 % 4096 = 0 ∧
      s.pageAllocator.1 / 4096 < maxFrames ∧ IsFree s.availFrames (s.pageAllocator.1 / 4096) ∧
      ∀ n, IsFree s.pageAllocator.2.availFrames n ↔
        n ≠ s.pageAllocator.1 / 4096 ∧ IsFree s.availFrames n := by
  simp only [pageAllocator, Bool.or_eq_false_iff] at h
  obtain ⟨hx, hsome⟩ := h
  obtain ⟨n, hn⟩ : ∃ n, getFirstFrame s.availFrames = some n := by
    cases hg : getFirstFrame s.availFrames with
    | none => rw [hg] at hsome; cases hsome
    | some n => exact ⟨n, rfl⟩
  obtain ⟨hlt, hfree, -⟩ := getFirstFrame_eq_some_iff.mp hn
  simp only [pageAllocator, pageAllocator_of_getFirstFrame hn]
  rw [Nat.mul_div_cancel n (by decide : 0 < 0x1000)]
  refine ⟨hx, Nat.mul_mod_left n 0x1000, hlt, hfree, fun m => ?_⟩
  rw [isFree_markasUsed]

end Phys

end Sbunix
