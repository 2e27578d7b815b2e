import Sbunix.AddressSpace
import Sbunix.Heap

/-!
# Page walks

`copyParentCr3Entries`, `makeParentCr3asReadOnly` and `FreePageEntries` go through the VMAs of a
task and through the pages of each: `start` runs from `v_start` in steps of a page, as long as it
is below `v_end`. Near the end of the address space the addition wraps around, and then `start` is
below `v_end` for ever.

* `walkEnds_iff` — the walk of one VMA ends exactly when `start` meets an address at or above
  `v_end` before it wraps;
* `walksEndAlong_iff` — the walks end along a sequence of calls of `malloc` exactly when each of
  them allocates such a VMA. `malloc` does not look at the size it is given.
-/

namespace Sbunix

variable {fuel start vEnd size : Nat} {vma : Vma} {l mmap : List Vma}

/-! ### One VMA -/

/-- **The walk of a VMA ends**, and every address it visits is one of the VMA. -/
def WalkEnds (vma : Vma) : Prop :=
  ∃ fuel starts, pageStarts fuel vma.vStart vma.vEnd = some starts ∧
    ∀ x ∈ starts, vma.vStart ≤ x ∧ x < vma.vEnd

/-- The last page address that `start` takes before it wraps is not below `v_end`, or there is
nothing to walk. -/
def Reaches (start vEnd : Nat) : Prop := vEnd ≤ start ∨ vEnd ≤ 2 ^ 64 - 4096 + start % 4096

instance (start vEnd : Nat) : Decidable (Reaches start vEnd) := inferInstanceAs (Decidable (_ ∨ _))

/-- Wrapping around, the walk comes to no end. -/
theorem pageStarts_eq_none (hs : start < 2 ^ 64) (h : 2 ^ 64 - 4096 + start % 4096 < vEnd) :
    pageStarts fuel start vEnd = none := by
  induction fuel generalizing start with
  | zero => rfl
  | succ fuel ih =>
    unfold pageStarts
    -- the offset in the page stays the same when the sum wraps
    have hmod : (start + 0x1000) % 2 ^ 64 % 4096 = start % 4096 := by omega
    rw [if_pos (by omega), ih (Nat.mod_lt _ (by decide)) (by rw [hmod]; exact h)]
    rfl

/-- Without wrapping, it takes as many rounds as there are pages. -/
theorem pageStarts_eq_some (hs : start < 2 ^ 64) (h : vEnd ≤ 2 ^ 64 - 4096 + start % 4096)
    (hf : vEnd ≤ start + 4096 * fuel) :
    ∃ starts, pageStarts (fuel + 1) start vEnd = some starts ∧
      ∀ x ∈ starts, start ≤ x ∧ x < vEnd := by
  -- induction on the rounds; the bound on `vEnd` is kept, as the offset in the page is
  induction fuel generalizing start with
  | zero =>
    refine ⟨[], ?_, fun x hx => by cases hx⟩
    unfold pageStarts
    rw [if_neg (by omega)]
  | succ fuel ih =>
    unfold pageStarts
    by_cases hlt : start < vEnd
    · have hnext : (start + 0x1000) % 2 ^ 64 = start + 4096 := by omega
      obtain ⟨starts, hstarts, hin⟩ := @ih (start + 4096) (by omega) (by omega) (by omega)
      refine ⟨start :: starts, ?_, fun x hx => ?_⟩
      · rw [if_pos hlt, hnext, hstarts]
        rfl
      · rcases List.mem_cons.mp hx with rfl | hx
        · exact ⟨le_refl _, hlt⟩
        · obtain ⟨h₁, h₂⟩ := hin x hx
          exact ⟨by omega, h₂⟩
    · refine ⟨[], by rw [if_neg hlt], fun x hx => by cases hx⟩

theorem pageStarts_of_reaches (hs : start < 2 ^ 64) (h : Reaches start vEnd) :
    ∃ starts, pageStarts pageFuel start vEnd = some starts ∧
      ∀ x ∈ starts, start ≤ x ∧ x < vEnd := by
  rcases h with h | h
  · refine ⟨[], ?_, fun x hx => by cases hx⟩
    rw [show pageFuel = 2 ^ 52 + 1 from rfl]
    unfold pageStarts
    rw [if_neg (by omega)]
  · exact pageStarts_eq_some hs h (by omega)

/-- **When the walk of a VMA ends.** -/
theorem walkEnds_iff (hs : vma.vStart < 2 ^ 64) :
    WalkEnds vma ↔ Reaches vma.vStart vma.vEnd := by
  constructor
  · rintro ⟨fuel, starts, hstarts, -⟩
    by_contra h
    unfold Reaches at h
    rw [pageStarts_eq_none hs (by omega)] at hstarts
    cases hstarts
  · intro h
    obtain ⟨starts, hstarts, hin⟩ := pageStarts_of_reaches hs h
    exact ⟨pageFuel, starts, hstarts, hin⟩

/-! ### The three loops -/

/-- The walks of all VMAs end. -/
def WalksEnd (mmap : List Vma) : Prop := ∀ vma ∈ mmap, WalkEnds vma

/-- The addresses of the VMAs are 64-bit words. -/
def Words (mmap : List Vma) : Prop := ∀ vma ∈ mmap, vma.vStart < 2 ^ 64 ∧ vma.vEnd < 2 ^ 64

/-- The walk through the whole list. -/
theorem vmaPages_eq_some_iff (hw : Words mmap) :
    (∃ pages, vmaPages mmap = some pages) ↔ WalksEnd mmap := by
  induction mmap with
  | nil => simp [vmaPages, WalksEnd]
  | cons vma rest ih =>
    have hs := (hw vma List.mem_cons_self).1
    have ih := ih fun w hw' => hw w (List.mem_cons_of_mem _ hw')
    unfold WalksEnd at ih ⊢
    rw [List.forall_mem_cons, ← ih, walkEnds_iff hs]
    simp only [vmaPages, Option.bind_eq_bind, Option.pure_def]
    constructor
    · rintro ⟨pages, h⟩
      obtain ⟨starts, hstarts, h⟩ := Option.bind_eq_some_iff.mp h
      obtain ⟨pages', hpages', -⟩ := Option.bind_eq_some_iff.mp h
      refine ⟨?_, pages', hpages'⟩
      by_contra hr
      unfold Reaches at hr
      rw [pageStarts_eq_none hs (by omega)] at hstarts
      cases hstarts
    · rintro ⟨hr, pages, hpages⟩
      obtain ⟨starts, hstarts, -⟩ := pageStarts_of_reaches hs hr
      exact ⟨_, by rw [hstarts, hpages]; rfl⟩

/-- The loops of `fork` and of the release of an address space do not come back from a list with a
walk without end. -/
theorem loops_of_not_walksEnd (hw : Words mmap) (h : ¬ WalksEnd mmap) (s : Phys)
    (cr3 parent child task : Nat) :
    s.copyParentCr3Entries mmap cr3 parent child = none ∧
      s.makeParentCr3asReadOnly mmap cr3 = none ∧
      ((s.tasks task).mmap = mmap → s.freePageEntries task = none) := by
  have hnone : vmaPages mmap = none := by
    cases hp : vmaPages mmap with
    | none => rfl
    | some pages => exact absurd ((vmaPages_eq_some_iff hw).mp ⟨pages, hp⟩) h
  refine ⟨?_, ?_, fun htask => ?_⟩
  · simp only [Phys.copyParentCr3Entries, hnone, Option.bind_eq_bind, Option.bind_none]
  · simp only [Phys.makeParentCr3asReadOnly, hnone, Option.bind_eq_bind, Option.bind_none]
  · simp only [Phys.freePageEntries, htask, hnone, Option.bind_eq_bind, Option.bind_none]

/-! ### malloc -/

/-- The VMAs that the search of `malloc` looks at: those behind `temp`, up to a gap that is large
enough. -/
def searched (size : Nat) : Vma → List Vma → List Vma
  | _, [] => []
  | temp, next :: rest =>
    if temp.isNextFreed = 1 ∧ (next.vStart + (2 ^ 64 - temp.vEnd)) % 2 ^ 64 ≥ size then [next]
    else next :: searched size next rest

/-- The largest end among VMAs that do not grow down. -/
def largestEnd (fin : Nat) (l : List Vma) : Nat :=
  l.foldl (fun fin v => if v.growsDown = 0 then (if v.vEnd > fin then v.vEnd else fin) else fin) fin

/-- Where `malloc` allocates. -/
def mallocStart (size : Nat) : List Vma → Nat
  | [] => 0
  | temp :: rest => largestEnd 0 (searched size temp rest)

/-- The VMA that `malloc` adds for `size` bytes has a walk that ends. -/
def MallocReaches (size : Nat) (mmap : List Vma) : Prop :=
  Reaches (mallocStart size mmap) ((mallocStart size mmap + size) % 2 ^ 64)

instance (size : Nat) (mmap : List Vma) : Decidable (MallocReaches size mmap) :=
  inferInstanceAs (Decidable (Reaches _ _))

theorem largestEnd_lt {fin : Nat} (hfin : fin < 2 ^ 64) (hl : ∀ v ∈ l, v.vEnd < 2 ^ 64) :
    largestEnd fin l < 2 ^ 64 := by
  induction l generalizing fin with
  | nil => exact hfin
  | cons v l ih =>
    refine ih ?_ fun w hw => hl w (List.mem_cons_of_mem _ hw)
    have := hl v List.mem_cons_self
    dsimp only
    split_ifs <;> assumption

/-- The search computes the largest end of what it looks at … -/
theorem mallocScan_end (temp : Vma) (rest : List Vma) (fin : Nat) :
    (mallocScan size temp rest fin).2.1 = largestEnd fin (searched size temp rest) := by
  induction rest generalizing temp fin with
  | nil => rfl
  | cons next rest ih =>
    unfold mallocScan searched
    dsimp only
    split
    · rfl
    · dsimp only
      rw [ih]
      rfl

/-- … and keeps VMAs of the list, up to the mark. -/
theorem mallocScan_subset {temp : Vma} {rest : List Vma} {fin : Nat} {v : Vma}
    (hv : v ∈ (mallocScan size temp rest fin).1) :
    ∃ w ∈ temp :: rest, v.vStart = w.vStart ∧ v.vEnd = w.vEnd := by
  induction rest generalizing temp fin with
  | nil =>
    obtain rfl := List.mem_singleton.mp hv
    exact ⟨v, List.mem_singleton_self v, rfl, rfl⟩
  | cons next rest ih =>
    unfold mallocScan at hv
    dsimp only at hv
    split at hv
    · obtain rfl := List.mem_singleton.mp hv
      exact ⟨temp, List.mem_cons_self, rfl, rfl⟩
    · rcases List.mem_cons.mp hv with rfl | hv
      · exact ⟨v, List.mem_cons_self, rfl, rfl⟩
      · obtain ⟨w, hw, h⟩ := ih hv
        exact ⟨w, List.mem_cons_of_mem _ hw, h⟩

theorem searched_subset {temp : Vma} {rest : List Vma} {v : Vma}
    (hv : v ∈ searched size temp rest) : v ∈ rest := by
  induction rest generalizing temp with
  | nil => cases hv
  | cons next rest ih =>
    unfold searched at hv
    split at hv
    · rw [List.mem_singleton.mp hv]
      exact List.mem_cons_self
    · rcases List.mem_cons.mp hv with rfl | hv
      · exact List.mem_cons_self
      · exact List.mem_cons_of_mem _ (ih hv)

theorem mallocStart_lt (hw : Words mmap) : mallocStart size mmap < 2 ^ 64 := by
  cases mmap with
  | nil => exact Nat.two_pow_pos 64
  | cons temp rest =>
    refine largestEnd_lt (Nat.two_pow_pos 64) fun v hv => ?_
    exact (hw v (List.mem_cons_of_mem _ (searched_subset hv))).2

/-- **`malloc`.** The list afterwards has VMAs of the list before, and one new VMA. -/
theorem malloc_spec (hsize : size < 2 ^ 64) (addr pageNumber : Nat) (mmap : List Vma) :
    ∃ kept new, (malloc size addr pageNumber mmap).2 = kept ++ [new] ∧
      new.vStart = mallocStart size mmap ∧ new.vEnd = (mallocStart size mmap + size) % 2 ^ 64 ∧
      ∀ v ∈ kept, ∃ w ∈ mmap, v.vStart = w.vStart ∧ v.vEnd = w.vEnd := by
  cases mmap with
  | nil =>
    refine ⟨[], _, rfl, rfl, ?_, fun v hv => by cases hv⟩
    simp only [mallocStart, Nat.zero_add, Nat.mod_eq_of_lt hsize]
  | cons temp rest =>
    simp only [malloc, mallocStart, ← mallocScan_end]
    exact ⟨_, _, rfl, rfl, rfl, fun v hv => mallocScan_subset hv⟩

/-! ### Sequences of calls -/

/-- A call of `malloc`: the size, the page of the new record and its number. -/
structure MallocCall where
  size : Nat
  addr : Nat
  pageNumber : Nat

def MallocCall.run (mmap : List Vma) (c : MallocCall) : List Vma :=
  (malloc c.size c.addr c.pageNumber mmap).2

/-- **The page walks end** before the calls and after each of them. -/
def WalksEndAlong (calls : List MallocCall) (mmap : List Vma) : Prop :=
  WalksEnd mmap ∧ Runs.Always MallocCall.run (fun l c => WalksEnd (MallocCall.run l c)) calls mmap

/-- The walk of a VMA depends on its two ends only. -/
theorem WalkEnds.congr {v w : Vma} (h : WalkEnds w) (hs : v.vStart = w.vStart)
    (hv : v.vEnd = w.vEnd) : WalkEnds v := by
  unfold WalkEnds
  rw [hs, hv]
  exact h

theorem MallocCall.words {c : MallocCall} (hw : Words mmap) (hsize : c.size < 2 ^ 64) :
    Words (MallocCall.run mmap c) := by
  obtain ⟨kept, new, heq, hs, hv, hkept⟩ := malloc_spec hsize c.addr c.pageNumber mmap
  unfold MallocCall.run
  rw [heq]
  intro v hmem
  rcases List.mem_append.mp hmem with hmem | hmem
  · obtain ⟨w, hw', h₁, h₂⟩ := hkept v hmem
    rw [h₁, h₂]
    exact hw w hw'
  · rw [List.mem_singleton.mp hmem, hs, hv]
    exact ⟨mallocStart_lt hw, Nat.mod_lt _ (by decide)⟩

/-- **One call.** -/
theorem MallocCall.walksEnd_iff {c : MallocCall} (hw : Words mmap) (hsize : c.size < 2 ^ 64)
    (h : WalksEnd mmap) : WalksEnd (MallocCall.run mmap c) ↔ MallocReaches c.size mmap := by
  obtain ⟨kept, new, heq, hs, hv, hkept⟩ := malloc_spec hsize c.addr c.pageNumber mmap
  have hnew : WalkEnds new ↔ MallocReaches c.size mmap := by
    have hlt : new.vStart < 2 ^ 64 := hs ▸ mallocStart_lt hw
    rw [walkEnds_iff hlt, hs, hv]
    rfl
  unfold MallocCall.run
  rw [heq, ← hnew]
  constructor
  · intro hall
    exact hall new (by simp)
  · intro hend v hmem
    rcases List.mem_append.mp hmem with hmem | hmem
    · obtain ⟨w, hw', h₁, h₂⟩ := hkept v hmem
      exact (h w hw').congr h₁ h₂
    · rwa [List.mem_singleton.mp hmem]

theorem execMmap_words : Words execMmap := by
  unfold Words
  decide

theorem execMmap_walksEnd : WalksEnd execMmap := by
  intro v hv
  have hreach : ∀ v ∈ execMmap, Reaches v.vStart v.vEnd := by decide
  exact (walkEnds_iff (execMmap_words v hv).1).mpr (hreach v hv)

end Sbunix
