import Mathlib.Data.Finset.Card
import Mathlib.Data.Finset.Range
import Sbunix.Tables

/-!
# The map/lookup law

What `mapPageForUser` does to one address space, stated without any typing: the tree under a
PML4 is `WellFormed` when no two slots share a table and all tables are marked used. With enough
free frames, mapping a page sets exactly its own translation, keeps the tree well formed and
touches nothing but the tree and the frames it takes (`mapPageForUser_law`).

The typing that `mapWith_spec` asks for is read off the well-formed tree
(`WellFormed.exists_typed`). The number of frames needed is the number of tables missing on the
way (`tablesMissing`); that this many suffice is `mapWith_live`.
-/

namespace Sbunix

open ByteMem Placement

/-- A path of slots in a four-level tree that ends in a table. -/
def TreePath (q : List Nat) : Prop := q.length ≤ 3 ∧ ∀ i ∈ q, i < 512

/-- A table of the tree under `pml4`, itself included. -/
def InTree (s : Phys) (pml4 f : Nat) : Prop :=
  ∃ q, TreePath q ∧ walk (child s.mem) pml4 q = some f

/-- **Well-formed trees.** Every table is a page that is marked used, and no table is reached
through two different entries. -/
structure WellFormed (s : Phys) (pml4 : Nat) : Prop where
  used : ∀ f, InTree s pml4 f →
    f % 4096 = 0 ∧ f / 4096 < maxFrames ∧ ¬ IsFree s.availFrames (f / 4096)
  unique : ∀ q q' f, TreePath q → TreePath q' → walk (child s.mem) pml4 q = some f →
    walk (child s.mem) pml4 q' = some f → q = q'

/-- The tables `mapPageForUser` has to allocate for `v`. -/
def tablesMissing (s : Phys) (v pml4 : Nat) : Nat :=
  match child s.mem pml4 (pml4Index v) with
  | none => 3
  | some pdpt =>
    match child s.mem pdpt (pdptIndex v) with
    | none => 2
    | some pdt =>
      match child s.mem pdt (pdtIndex v) with
      | none => 1
      | some _ => 0

/-- The frames that are free. -/
def freeFrames (a : Bitmap) : Finset Nat := (Finset.range maxFrames).filter (IsFree a)

/-! ### Enough frames -/

theorem mem_freeFrames {a : Bitmap} {n : Nat} : n ∈ freeFrames a ↔ n < maxFrames ∧ IsFree a n := by
  rw [freeFrames, Finset.mem_filter, Finset.mem_range]

theorem freeFrames_markasUsed (a : Bitmap) (n : Nat) :
    freeFrames (markasUsed a n) = (freeFrames a).erase n := by
  ext m
  rw [Finset.mem_erase, mem_freeFrames, mem_freeFrames, isFree_markasUsed]
  tauto

/-- With a free frame left, `pageAllocator` does not return `NULL`. -/
theorem pageAllocator_live {s : Phys} {k : Nat} (hx : s.exhausted = false)
    (hk : k + 1 ≤ (freeFrames s.availFrames).card) :
    s.pageAllocator.2.exhausted = false ∧
      k ≤ (freeFrames s.pageAllocator.2.availFrames).card := by
  obtain ⟨m, hm⟩ : (freeFrames s.availFrames).Nonempty := by
    rw [← Finset.card_pos]
    omega
  obtain ⟨hlt, hfree⟩ := mem_freeFrames.mp hm
  cases hg : getFirstFrame s.availFrames with
  | none => exact absurd hfree (getFirstFrame_eq_none_iff.mp hg m hlt)
  | some n =>
    simp only [Phys.pageAllocator, pageAllocator_of_getFirstFrame hg, hg, hx,
      Option.isNone_some, Bool.or_false, true_and, freeFrames_markasUsed]
    have := Finset.pred_card_le_card_erase (s := freeFrames s.availFrames) (a := n)
    omega

theorem nextTable_of_child {s : Phys} {table i flag f : Nat} (h : child s.mem table i = some f) :
    s.nextTable table i flag = (f, s) := by
  unfold child at h
  split at h
  · next hp =>
    simp only [Phys.nextTable, if_pos hp, Option.some.inj h]
  · cases h

/-- One level takes one frame at most. -/
theorem nextTable_alive {s : Phys} {t i u k : Nat} (hx : s.exhausted = false)
    (hk : k + 1 ≤ (freeFrames s.availFrames).card) :
    (s.nextTable t i u).2.exhausted = false ∧
      k ≤ (freeFrames (s.nextTable t i u).2.availFrames).card := by
  simp only [Phys.nextTable]
  split
  · exact ⟨hx, Nat.le_of_succ_le hk⟩
  · simpa using pageAllocator_live hx hk

theorem mapWith_live {s : Phys} {flag v p pml4 : Nat} (hx : s.exhausted = false)
    (hk : tablesMissing s v pml4 ≤ (freeFrames s.availFrames).card) :
    (s.mapWith flag v p pml4).exhausted = false := by
  simp only [Phys.mapWith, Phys.store64_exhausted]
  unfold tablesMissing at hk
  cases h₁ : child s.mem pml4 (pml4Index v) with
  | none =>
    simp only [h₁] at hk
    obtain ⟨hx₁, hk₁⟩ := nextTable_alive (t := pml4) (i := pml4Index v) (u := flag)
      (k := 2) hx hk
    obtain ⟨hx₂, hk₂⟩ := nextTable_alive (k := 1) hx₁ hk₁
    exact (nextTable_alive (k := 0) hx₂ hk₂).1
  | some pdpt =>
    rw [nextTable_of_child h₁]
    cases h₂ : child s.mem pdpt (pdptIndex v) with
    | none =>
      simp only [h₁, h₂] at hk
      obtain ⟨hx₂, hk₂⟩ := nextTable_alive (k := 1) hx hk
      exact (nextTable_alive (k := 0) hx₂ hk₂).1
    | some pdt =>
      rw [nextTable_of_child h₂]
      cases h₃ : child s.mem pdt (pdtIndex v) with
      | none =>
        simp only [h₁, h₂, h₃] at hk
        exact (nextTable_alive (k := 0) hx hk).1
      | some pt =>
        rw [nextTable_of_child h₃]
        exact hx

/-- A whole mapping takes three frames at most. -/
theorem mapWith_alive_of_le {s : Phys} {flag v p pml4 k : Nat} (hx : s.exhausted = false)
    (hk : k + 3 ≤ (freeFrames s.availFrames).card) :
    (s.mapWith flag v p pml4).exhausted = false ∧
      k ≤ (freeFrames (s.mapWith flag v p pml4).availFrames).card := by
  obtain ⟨hx₁, hk₁⟩ := nextTable_alive (t := pml4) (i := pml4Index v) (u := flag)
    (k := k + 2) hx hk
  obtain ⟨hx₂, hk₂⟩ := nextTable_alive (k := k + 1) hx₁ hk₁
  simpa only [Phys.mapWith, Phys.store64_exhausted, Phys.store64_availFrames] using
    nextTable_alive (k := k) hx₂ hk₂

theorem kmalloc_alive_of_le {s : Phys} {k : Nat} (hx : s.exhausted = false)
    (hk : k + 1 ≤ (freeFrames s.availFrames).card) :
    s.kmalloc.2.exhausted = false ∧ k ≤ (freeFrames s.kmalloc.2.availFrames).card := by
  simpa only [Phys.kmalloc, Phys.memset_exhausted, Phys.memset_availFrames] using
    pageAllocator_live hx hk

/-! ### The history variable does not matter -/

/-- The same memory, as if no allocation had failed yet. -/
def Phys.forget (s : Phys) : Phys := { s with exhausted := false }

/-- Two memories that differ in the history variable at most. -/
theorem forget_eq_iff {s t : Phys} : s.forget = t.forget ↔
    s.mem = t.mem ∧ s.availFrames = t.availFrames ∧ s.tasks = t.tasks := by
  simp [Phys.forget]

theorem nextTable_forget (s : Phys) (table i flag : Nat) :
    (s.forget.nextTable table i flag).1 = (s.nextTable table i flag).1 ∧
      (s.forget.nextTable table i flag).2.forget = (s.nextTable table i flag).2.forget := by
  simp only [Phys.nextTable]
  by_cases h : entry s.mem table i &&& present ≠ 0
  · have h' : entry s.forget.mem table i &&& present ≠ 0 := h
    rw [if_pos h, if_pos h']
    exact ⟨rfl, rfl⟩
  · have h' : ¬ entry s.forget.mem table i &&& present ≠ 0 := h
    rw [if_neg h, if_neg h']
    refine ⟨by simp only [Phys.pageAllocator, Phys.forget], ?_⟩
    simp only [Phys.pageAllocator, Phys.forget, Phys.memset, Phys.store64]

theorem mapWith_forget (s : Phys) (flag v p pml4 : Nat) :
    (s.forget.mapWith flag v p pml4).forget = (s.mapWith flag v p pml4).forget := by
  -- each level forgets the variable of the level before
  have hcongr : ∀ {t u : Phys} {table table' : Nat} (i : Nat), table = table' →
      t.forget = u.forget →
      (t.nextTable table i flag).1 = (u.nextTable table' i flag).1 ∧
        (t.nextTable table i flag).2.forget = (u.nextTable table' i flag).2.forget := by
    rintro t u table _ i rfl htu
    have ht := nextTable_forget t table i flag
    have hu := nextTable_forget u table i flag
    rw [htu] at ht
    exact ⟨ht.1.symm.trans hu.1, ht.2.symm.trans hu.2⟩
  have h₁ := hcongr (t := s.forget) (u := s) (pml4Index v) (rfl : pml4 = pml4) rfl
  have h₂ := hcongr (pdptIndex v) h₁.1 h₁.2
  have h₃ := hcongr (pdtIndex v) h₂.1 h₂.2
  simp only [Phys.mapWith]
  rw [h₃.1]
  have h := forget_eq_iff.mp h₃.2
  refine forget_eq_iff.mpr ⟨?_, ?_, ?_⟩
  · simp only [Phys.store64, h.1]
  · simp only [Phys.store64, h.2.1]
  · simp only [Phys.store64, h.2.2]

/-! ### The law -/

/-- The shape of a single tree with all of its 512 slots. -/
def Shape.single (pml4 : Nat) : Shape := ⟨(· = pml4), 512, fun _ _ => True⟩

theorem Shape.single_dom {pml4 r : Nat} {q : List Nat} :
    (Shape.single pml4).Dom r q ↔ r = pml4 ∧ TreePath q := by
  constructor
  · rintro ⟨hr, hl, hi, -⟩
    exact ⟨hr, hl, hi⟩
  · rintro ⟨hr, hl, hi⟩
    exact ⟨hr, hl, hi, fun i h => hi i (List.mem_of_mem_head? h)⟩

/-- **A well-formed tree is typed**: its tables by their paths, everything else not at all. -/
theorem WellFormed.exists_typed {s : Phys} {pml4 : Nat} (h : WellFormed s pml4) :
    ∃ Γ, Typed (Shape.single pml4) s Γ ∧ ∀ f, Γ f ≠ .unowned → InTree s pml4 f := by
  obtain ⟨pl, hpl, hmin⟩ := exists_placed_of_injective (c := child s.mem)
    (d := (Shape.single pml4).Dom) fun r r' p p' n hp hp' hw hw' => by
      obtain ⟨rfl, hq⟩ := Shape.single_dom.mp hp
      obtain ⟨rfl, hq'⟩ := Shape.single_dom.mp hp'
      exact ⟨rfl, h.unique p p' n hq hq' hw hw'⟩
  let Γ : Nat → Use := fun f =>
    match pl f with
    | some (r, p) => .table r p
    | none => .unowned
  have hplace : place Γ = pl := by
    funext f
    simp only [place, Γ]
    cases pl f <;> rfl
  have hin : ∀ f, Γ f ≠ .unowned → InTree s pml4 f := by
    intro f hf
    cases hpf : pl f with
    | none => simp [Γ, hpf] at hf
    | some a =>
      obtain ⟨hd, hw⟩ := hmin f a.1 a.2 hpf
      obtain ⟨hr, hq⟩ := Shape.single_dom.mp hd
      rw [hr] at hw
      exact ⟨a.2, hq, hw⟩
  refine ⟨Γ, ⟨fun f hf => h.used f (hin f hf), fun f r p hf => ?_, by rw [hplace]; exact hpl,
    fun _ _ _ _ _ _ => trivial⟩, hin⟩
  rw [← place_eq_some, hplace] at hf
  exact (hmin f r p hf).1.1

theorem Typed.wellFormed {s : Phys} {pml4 : Nat} {Γ : Nat → Use}
    (h : Typed (Shape.single pml4) s Γ) : WellFormed s pml4 where
  used := by
    rintro f ⟨q, hq, hw⟩
    refine h.owned f ?_
    rw [h.walk (Shape.single_dom.mpr ⟨rfl, hq⟩) hw]
    simp
  unique q q' f hq hq' hw hw' :=
    (h.placed.injective (Shape.prefixClosed _) (Shape.single_dom.mpr ⟨rfl, hq⟩)
      (Shape.single_dom.mpr ⟨rfl, hq'⟩) hw hw').2

/-- What mapping page `p` at `v` under `pml4` does to memory `s`. -/
structure MapLaw (s s' : Phys) (v p pml4 : Nat) : Prop where
  /-- `v` is translated to `p`, with the present, writable and user bits set. -/
  self : s'.getPhysicalPageAddr v pml4 = p ||| present ||| writeable ||| user
  /-- Every other page of the 48-bit address space keeps its entry, up to an empty table. -/
  other : ∀ w, OtherPage v w →
    Kept (s.getPhysicalPageAddr w pml4) (s'.getPhysicalPageAddr w pml4)
  wellFormed : WellFormed s' pml4
  /-- The bits cleared in `availFrames` are those of the new tables. -/
  bits : ∀ n, IsFree s'.availFrames n ↔ IsFree s.availFrames n ∧ ¬ InTree s' pml4 (n * 4096)
  /-- A byte that changes lies in the tree or in a frame newly taken. -/
  mem : ∀ x, s'.mem x ≠ s.mem x → InTree s pml4 (x / 4096 * 4096) ∨
    (IsFree s.availFrames (x / 4096) ∧ ¬ IsFree s'.availFrames (x / 4096))
  /-- A task record that is cleared lies in a frame newly taken. -/
  tasks : ∀ f, f % 4096 = 0 → s'.tasks (kernbase + f) ≠ s.tasks (kernbase + f) →
    IsFree s.availFrames (f / 4096) ∧ ¬ IsFree s'.availFrames (f / 4096)

/-- **The map/lookup law** of `mapPageForUser` and `getPhysicalPageAddr`. -/
theorem mapPageForUser_law (s : Phys) (v p pml4 : Nat) (hwf : WellFormed s pml4)
    (hp : p % 4096 = 0) (hp' : p < 2 ^ 52)
    (hfree : tablesMissing s v pml4 ≤ (freeFrames s.availFrames).card) :
    MapLaw s (s.mapPageForUser v p pml4) v p pml4 := by
  -- run on a memory without history, where nothing is exhausted
  have hwf' : WellFormed s.forget pml4 := ⟨hwf.used, hwf.unique⟩
  obtain ⟨Γ, hT, hmin⟩ := hwf'.exists_typed
  have hx : (s.forget.mapWith user v p pml4).exhausted = false := mapWith_live rfl hfree
  have hS : (Shape.single pml4).Accepts pml4 user := ⟨by decide, trivial, fun _ _ _ => trivial⟩
  obtain ⟨Γ', ht, hself, hother⟩ := mapWith_spec hT rfl (pml4Index_lt v) hp hp' hx hS
  obtain ⟨hm, ha, htk⟩ := forget_eq_iff.mp (mapWith_forget s user v p pml4)
  have hlook : ∀ w, (s.forget.mapWith user v p pml4).getPhysicalPageAddr w pml4 =
      (s.mapPageForUser v p pml4).getPhysicalPageAddr w pml4 := fun w =>
    getPhysicalPageAddr_congr hm w pml4
  have htree : ∀ f, InTree (s.mapPageForUser v p pml4) pml4 f ↔
      InTree (s.forget.mapWith user v p pml4) pml4 f := fun f => by
    simp only [InTree, Phys.mapPageForUser, hm]
  have hbits : ∀ n, IsFree (s.mapPageForUser v p pml4).availFrames n ↔
      IsFree (s.forget.mapWith user v p pml4).availFrames n := fun n => by
    rw [ha, Phys.mapPageForUser]
  refine ⟨?_, fun w hw => ?_, ?_, fun n => ?_, fun x hx => ?_, fun f hf htf => ?_⟩
  · rw [← hlook, getPhysicalPageAddr_eq, hself, or_flags hp hS.1]
    rfl
  · rw [← hlook]
    exact (hother w (pml4Index_lt w) hw).kept
  · have hwf'' := ht.typed.wellFormed
    refine ⟨fun f hf => ?_, ?_⟩
    · rw [hbits]
      exact hwf''.used f ((htree f).mp hf)
    · rw [Phys.mapPageForUser, ← hm]
      exact hwf''.unique
  · rw [hbits, ht.free, htree]
    refine and_congr_right fun hn => ⟨fun hu => ?_, fun hu => ?_⟩
    · rintro ⟨q, hq, hw⟩
      rw [ht.typed.walk (Shape.single_dom.mpr ⟨rfl, hq⟩) hw] at hu
      cases hu
    · by_contra hne
      have hu' := hT.unowned_of_free (f := n * 4096) (by rwa [Nat.mul_div_cancel n (by decide)])
      obtain ⟨-, q, hq, -, hw⟩ := ht.fresh _ hu' hne
      exact hu ⟨q, (Shape.single_dom.mp hq).2, hw⟩
  · by_contra hc
    obtain ⟨hc₁, hc₂⟩ := not_or.mp hc
    rw [hbits] at hc₂
    refine hx ?_
    rw [Phys.mapPageForUser, ← hm]
    refine ht.mem x (fun hf => by_contra fun hf' => hc₂ ⟨hf, hf'⟩) fun q hq => hc₁ ?_
    exact hmin _ (by simp [hq])
  · by_contra hc
    rw [hbits] at hc
    refine htf ?_
    rw [Phys.mapPageForUser, ← htk]
    exact ht.tasks f hf fun hf => by_contra fun hf' => hc ⟨hf, hf'⟩

/-- A cleared page that is marked used is a well-formed tree. -/
theorem wellFormed_of_clear {s : Phys} {pml4 : Nat}
    (hz : ∀ x, pml4 ≤ x → x < pml4 + 4096 → s.mem x = 0)
    (hu : pml4 % 4096 = 0 ∧ pml4 / 4096 < maxFrames ∧ ¬ IsFree s.availFrames (pml4 / 4096)) :
    WellFormed s pml4 := by
  have hroot : ∀ q f, TreePath q → walk (child s.mem) pml4 q = some f → q = [] ∧ f = pml4 := by
    intro q f hq hw
    cases q with
    | nil => exact ⟨rfl, (Option.some.inj hw).symm⟩
    | cons i q =>
      have hi : i < 512 := hq.2 i (by simp)
      have hz' : entry s.mem pml4 i = 0 :=
        read64_eq_zero fun x hx hx' => hz x (by omega) (by omega)
      rw [walk, child_eq_none.mpr (by rw [hz']), Option.bind_none] at hw
      cases hw
  refine ⟨?_, fun q q' f hq hq' hw hw' => ?_⟩
  · rintro f ⟨q, hq, hw⟩
    rwa [(hroot q f hq hw).2]
  · rw [(hroot q f hq hw).1, (hroot q' f hq' hw').1]

/-- A cleared memory in which frames 4 to 7 are free. -/
def clearedMemory : Phys :=
  ⟨fun _ => 0, fun row => if row = 0 then 0xF0#64 else 0#64, false, fun _ => Task.zeroed⟩

/-- Page `0x5000` is mapped at `0x400000` in an empty tree; three tables are allocated. -/
theorem mapPageForUser_law_cleared : MapLaw clearedMemory
    (clearedMemory.mapPageForUser 0x400000 0x5000 0x1000) 0x400000 0x5000 0x1000 := by
  refine mapPageForUser_law clearedMemory 0x400000 0x5000 0x1000
    (wellFormed_of_clear (fun _ _ _ => rfl) ⟨by decide, by decide, by decide⟩)
    (by decide) (by decide) ?_
  have hsub : ({4, 5, 6} : Finset Nat) ⊆ freeFrames clearedMemory.availFrames := by
    intro n hn
    rw [mem_freeFrames]
    simp only [Finset.mem_insert, Finset.mem_singleton] at hn
    rcases hn with rfl | rfl | rfl <;> exact ⟨by decide, by decide⟩
  have hmiss : tablesMissing clearedMemory 0x400000 0x1000 ≤ 3 := by
    unfold tablesMissing
    split <;> [skip; split <;> [skip; split]] <;> decide
  exact hmiss.trans (Finset.card_le_card hsub)

end Sbunix
