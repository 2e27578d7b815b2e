import Sbunix.Tables

/-!
# Building address spaces

`fork`, `exec` and the page-fault handler take pages from the allocator, use them as records,
data pages or tables, and fill them. `Builds S W s₀ Γ₀ s Γ` says that memory `s` arises from
`s₀` by such steps: uses are only added, and what had a use before keeps its bytes and records,
up to the tables of the roots in `W`. There is one lemma for each kind of step, and
`Leaves` follows the translations of a root along them.
-/

namespace Sbunix

open ByteMem Placement

variable {S : Shape} {W : Nat → Prop} {s₀ s s' : Phys} {Γ₀ Γ Γ' : Nat → Use} {r f : Nat}

/-! ### Pages -/

/-- Page `f` has been taken from the allocator; nothing outside of it has changed. -/
structure Taken (s s' : Phys) (f : Nat) : Prop where
  live : s.exhausted = false
  aligned : f % 4096 = 0
  lt : f / 4096 < maxFrames
  free : IsFree s.availFrames (f / 4096)
  bits : ∀ n, IsFree s'.availFrames n ↔ n ≠ f / 4096 ∧ IsFree s.availFrames n
  mem : ∀ x, ¬ (f ≤ x ∧ x < f + 4096) → s'.mem x = s.mem x
  tasks : ∀ g, g ≠ f → s'.tasks (kernbase + g) = s.tasks (kernbase + g)

/-- Only page `f` and the record in it differ. -/
structure Edits (s s' : Phys) (f : Nat) : Prop where
  avail : s'.availFrames = s.availFrames
  exhausted : s'.exhausted = s.exhausted
  mem : ∀ x, ¬ (f ≤ x ∧ x < f + 4096) → s'.mem x = s.mem x
  tasks : ∀ g, g ≠ f → s'.tasks (kernbase + g) = s.tasks (kernbase + g)

theorem Edits.refl (s : Phys) (f : Nat) : Edits s s f :=
  ⟨rfl, rfl, fun _ _ => rfl, fun _ _ => rfl⟩

theorem Edits.trans {s'' : Phys} (h : Edits s s' f) (h' : Edits s' s'' f) : Edits s s'' f :=
  ⟨h'.avail.trans h.avail, h'.exhausted.trans h.exhausted,
    fun x hx => (h'.mem x hx).trans (h.mem x hx), fun g hg => (h'.tasks g hg).trans (h.tasks g hg)⟩

theorem pageAllocator_taken (hx : s.pageAllocator.2.exhausted = false) :
    Taken s s.pageAllocator.2 s.pageAllocator.1 := by
  obtain ⟨h₁, h₂, h₃, h₄, h₅⟩ := Phys.pageAllocator_spec hx
  exact ⟨h₁, h₂, h₃, h₄, h₅, fun x _ => by rw [Phys.pageAllocator_mem],
    fun g _ => by rw [Phys.pageAllocator_tasks]⟩

theorem memset_edits (s : Phys) (f : Nat) : Edits s (s.memset f) f :=
  ⟨s.memset_availFrames f, s.memset_exhausted f, fun x hx => by rw [Phys.memset_mem, if_neg hx],
    fun _ hg => s.memset_tasks_of_ne hg⟩

theorem Taken.edit (h : Taken s s' f) {s'' : Phys} (h' : Edits s' s'' f) : Taken s s'' f :=
  ⟨h.live, h.aligned, h.lt, h.free, fun n => by rw [h'.avail, h.bits],
    fun x hx => (h'.mem x hx).trans (h.mem x hx), fun g hg => (h'.tasks g hg).trans (h.tasks g hg)⟩

/-- **`kmalloc`.** A page is taken and cleared. -/
theorem kmalloc_taken (hx : s.kmalloc.2.exhausted = false) :
    Taken s s.kmalloc.2 s.kmalloc.1 ∧
      (∀ x, s.kmalloc.1 ≤ x → x < s.kmalloc.1 + 4096 → s.kmalloc.2.mem x = 0) ∧
      s.kmalloc.2.tasks (kernbase + s.kmalloc.1) = Task.zeroed := by
  simp only [Phys.kmalloc, Phys.memset_exhausted] at hx ⊢
  refine ⟨(pageAllocator_taken hx).edit (memset_edits _ _), fun x hx hx' => ?_, ?_⟩
  · rw [Phys.memset_mem, if_pos ⟨hx, hx'⟩]
  · simp only [Phys.memset, Function.update_self]

theorem store64_edits (s : Phys) {f a v : Nat} (ha : f ≤ a) (ha' : a + 8 ≤ f + 4096) :
    Edits s (s.store64 a v) f :=
  ⟨s.store64_availFrames a v, s.store64_exhausted a v, fun x hx => write64_of_out (by omega),
    fun g _ => by rw [Phys.store64_tasks]⟩

theorem memcpy_edits (s : Phys) {f q dest n : Nat} (hd : f ≤ dest) (hd' : dest + n ≤ f + 4096) :
    Edits s (s.memcpy q dest n) f :=
  ⟨by simp only [Phys.memcpy], by simp only [Phys.memcpy],
    fun x hx => by
      simp only [Phys.memcpy]
      exact copy_of_out _ (by omega),
    fun g _ => by simp only [Phys.memcpy]⟩

/-! ### The steps -/

/-- **Building.** -/
structure Builds (S : Shape) (W : Nat → Prop) (s₀ : Phys) (Γ₀ : Nat → Use) (s : Phys)
    (Γ : Nat → Use) : Prop where
  typed : Typed S s Γ
  ext : ∀ f, Γ₀ f ≠ .unowned → Γ f = Γ₀ f
  fresh : ∀ f, Γ₀ f = .unowned → Γ f ≠ .unowned →
    IsFree s₀.availFrames (f / 4096) ∧ ∀ r p, Γ f = .table r p → W r
  free : ∀ n, IsFree s.availFrames n ↔ IsFree s₀.availFrames n ∧ Γ (n * 4096) = .unowned
  live : s.exhausted = false → s₀.exhausted = false
  tasks : ∀ f, Γ₀ f ≠ .unowned → s.tasks (kernbase + f) = s₀.tasks (kernbase + f)
  mem : ∀ f, Γ₀ f ≠ .unowned → (∀ r p, W r → Γ₀ f ≠ .table r p) →
    ∀ x, f ≤ x → x < f + 4096 → s.mem x = s₀.mem x

theorem Builds.refl (h : Typed S s Γ) : Builds S W s Γ s Γ where
  typed := h
  ext _ _ := rfl
  fresh _ hf hf' := absurd hf hf'
  free n := by
    refine ⟨fun hn => ⟨hn, h.unowned_of_free ?_⟩, fun hn => hn.1⟩
    rwa [Nat.mul_div_cancel n (by decide)]
  live := id
  tasks _ _ := rfl
  mem _ _ _ _ _ _ := rfl

theorem Builds.mono (h : Builds S W s₀ Γ₀ s Γ) {W' : Nat → Prop} (hW : ∀ r, W r → W' r) :
    Builds S W' s₀ Γ₀ s Γ :=
  ⟨h.typed, h.ext, fun f hf hf' => ⟨(h.fresh f hf hf').1, fun r p hp =>
    hW r ((h.fresh f hf hf').2 r p hp)⟩, h.free, h.live, h.tasks,
    fun f hf hp => h.mem f hf fun r p hr => hp r p (hW r hr)⟩

/-- Building goes on, also under a larger shape. -/
theorem Builds.trans {S' : Shape} {s₁ : Phys} {Γ₁ : Nat → Use} (h : Builds S W s₀ Γ₀ s₁ Γ₁)
    (h' : Builds S' W s₁ Γ₁ s Γ) : Builds S' W s₀ Γ₀ s Γ where
  typed := h'.typed
  ext f hf := by rw [h'.ext f (by rwa [h.ext f hf]), h.ext f hf]
  fresh f hf hf' := by
    -- the page was taken in the second part or in the first one
    by_cases hm : Γ₁ f = .unowned
    · obtain ⟨hfree, hW⟩ := h'.fresh f hm hf'
      exact ⟨((h.free _).mp hfree).1, hW⟩
    · obtain ⟨hfree, hW⟩ := h.fresh f hf hm
      exact ⟨hfree, fun r p hp => hW r p (by rw [← h'.ext f hm, hp])⟩
  free n := by
    rw [h'.free, h.free]
    constructor
    · rintro ⟨⟨hn, -⟩, hu⟩
      exact ⟨hn, hu⟩
    · rintro ⟨hn, hu⟩
      refine ⟨⟨hn, ?_⟩, hu⟩
      by_contra hne
      exact hne ((h'.ext _ hne).symm.trans hu)
  live hx := h.live (h'.live hx)
  tasks f hf := by rw [h'.tasks f (by rwa [h.ext f hf]), h.tasks f hf]
  mem f hf hp x hx hx' := by
    rw [h'.mem f (by rwa [h.ext f hf]) (fun r p hr => by rw [h.ext f hf]; exact hp r p hr) x hx hx',
      h.mem f hf hp x hx hx']

/-- What had a use at the start is in use now, and not free. -/
theorem Builds.used (h : Builds S W s₀ Γ₀ s Γ) (hf : Γ₀ f ≠ .unowned) :
    Γ f ≠ .unowned ∧ ¬ IsFree s.availFrames (f / 4096) := by
  have hne : Γ f ≠ .unowned := by rwa [h.ext f hf]
  exact ⟨hne, (h.typed.owned f hne).2.2⟩

/-- **An operation on a tree.** -/
theorem Builds.touches (h : Builds S W s₀ Γ₀ s Γ) (ht : Touches S r s s' Γ Γ') (hr : W r) :
    Builds S W s₀ Γ₀ s' Γ' where
  typed := ht.typed
  ext f hf := by rw [ht.ext f (h.used hf).1, h.ext f hf]
  fresh f hf hf' := by
    by_cases hm : Γ f = .unowned
    · -- a table that the operation has added belongs to its tree
      obtain ⟨hfree, p, -, hp, -⟩ := ht.fresh f hm hf'
      refine ⟨((h.free _).mp hfree).1, fun r' p' hp' => ?_⟩
      obtain ⟨rfl, -⟩ : r = r' ∧ p = p' := by simpa [hp] using hp'
      exact hr
    · rw [ht.ext f hm]
      exact h.fresh f hf hm
  free n := by
    rw [ht.free, h.free]
    constructor
    · rintro ⟨⟨hn, -⟩, hu⟩
      exact ⟨hn, hu⟩
    · rintro ⟨hn, hu⟩
      refine ⟨⟨hn, ?_⟩, hu⟩
      by_contra hne
      exact hne ((ht.ext _ hne).symm.trans hu)
  live hx := h.live (ht.live hx)
  tasks f hf := by
    obtain ⟨hne, hused⟩ := h.used hf
    rw [ht.tasks f (h.typed.owned f hne).1 fun hf' => absurd hf' hused, h.tasks f hf]
  mem f hf hp x hx hx' := by
    rw [ht.page h.typed (h.used hf).1 (fun p hp' => hp r p hr (by rw [← h.ext f hf, hp'])) hx hx',
      h.mem f hf hp x hx hx']

/-- The typing after page `f` has been given a use other than as a table. -/
theorem Typed.taken (h : Typed S s Γ) (ht : Taken s s' f) {u : Use} (hu : ∀ r p, u ≠ .table r p) :
    Typed S s' (Function.update Γ f u) := by
  have hΓf : Γ f = .unowned := h.unowned_of_free ht.free
  refine h.of_agree (fun g r p hg x hx hx' => ht.mem x fun hc => ?_) (fun g r p => ?_)
    fun g hg => ?_
  · -- a table page is another page
    have hgf : g = f := by
      have := (h.owned g (by simp [hg])).1
      have := ht.aligned
      omega
    subst hgf
    rw [hΓf] at hg
    cases hg
  · by_cases hgf : g = f
    · subst hgf
      simp [hΓf, hu r p]
    · rw [Function.update_of_ne hgf]
  · rw [ht.bits]
    by_cases hgf : g = f
    · subst hgf
      exact ⟨ht.aligned, ht.lt, fun hc => hc.1 rfl⟩
    · rw [Function.update_of_ne hgf] at hg
      obtain ⟨h₁, h₂, h₃⟩ := h.owned g hg
      exact ⟨h₁, h₂, fun hc => h₃ hc.2⟩

/-- A page that has just been taken had no use, and a page with a use is another page. -/
theorem Taken.unowned (ht : Taken s s' f) (h : Typed S s Γ) : Γ f = .unowned :=
  h.unowned_of_free ht.free

/-- **Taking a page.** -/
theorem Builds.taken (h : Builds S W s₀ Γ₀ s Γ) (ht : Taken s s' f) {u : Use}
    (hu : ∀ r p, u ≠ .table r p) (hu' : u ≠ .unowned) :
    Builds S W s₀ Γ₀ s' (Function.update Γ f u) := by
  -- a page with a use from the start is not the one that is taken
  have hΓf := ht.unowned h.typed
  have hne : ∀ g, Γ₀ g ≠ .unowned → g ≠ f := by
    rintro g hg rfl
    exact (h.used hg).1 hΓf
  refine ⟨h.typed.taken ht hu, fun g hg => ?_, fun g hg hg' => ?_, fun n => ?_,
    fun _ => h.live ht.live, fun g hg => ?_, fun g hg hp x hx hx' => ?_⟩
  · rw [Function.update_of_ne (hne g hg), h.ext g hg]
  · by_cases hgf : g = f
    · subst hgf
      refine ⟨((h.free _).mp ht.free).1, fun r p hp => ?_⟩
      rw [Function.update_self] at hp
      exact absurd hp (hu r p)
    · rw [Function.update_of_ne hgf] at hg' ⊢
      exact h.fresh g hg hg'
  · rw [ht.bits, h.free]
    have hal := ht.aligned
    by_cases hn : n = f / 4096
    · subst hn
      rw [show f / 4096 * 4096 = f by omega, Function.update_self]
      simp [hu']
    · rw [Function.update_of_ne (by omega)]
      simp [hn]
  · rw [ht.tasks g (hne g hg), h.tasks g hg]
  · rw [ht.mem x fun hc => hne g hg ?_, h.mem g hg hp x hx hx']
    have := (h.typed.owned g (h.used hg).1).1
    have := ht.aligned
    omega

/-- A typing looks at tables only. -/
theorem Typed.edits (h : Typed S s Γ) (he : Edits s s' f) (hal : f % 4096 = 0)
    (hΓ : ∀ r p, Γ f ≠ .table r p) : Typed S s' Γ := by
  refine h.of_agree (fun g r p hg x hx hx' => he.mem x fun hc => ?_) (fun _ _ _ => Iff.rfl)
    fun g hg => by rw [he.avail]; exact h.owned g hg
  have hgf : g = f := by
    have := (h.owned g (by simp [hg])).1
    omega
  exact hΓ r p (hgf ▸ hg)

/-- **Filling a page** that was taken on the way. -/
theorem Builds.edits (h : Builds S W s₀ Γ₀ s Γ) (he : Edits s s' f) (h₀ : Γ₀ f = .unowned)
    (hf : Γ f ≠ .unowned) (hΓ : ∀ r p, Γ f ≠ .table r p) : Builds S W s₀ Γ₀ s' Γ := by
  have hal := (h.typed.owned f hf).1
  have hne : ∀ g, Γ₀ g ≠ .unowned → g ≠ f := by
    rintro g hg rfl
    exact hg h₀
  refine ⟨h.typed.edits he hal hΓ, h.ext, h.fresh, fun n => by rw [he.avail, h.free],
    fun hx => h.live (by rwa [he.exhausted] at hx), fun g hg => ?_, fun g hg hp x hx hx' => ?_⟩
  · rw [he.tasks g (hne g hg), h.tasks g hg]
  · rw [he.mem x fun hc => hne g hg ?_, h.mem g hg hp x hx hx']
    have := (h.typed.owned g (h.used hg).1).1
    omega

/-- **The roots outside `W` keep their translations.** -/
theorem Builds.leaf_other (h : Builds S W s₀ Γ₀ s Γ) {S₀ : Shape} (h₀ : Typed S₀ s₀ Γ₀)
    (hr : S₀.Root r) (hW : ¬ W r) {v : Nat} (hv : pml4Index v < S₀.top) :
    s.leaf v r = s₀.leaf v r :=
  h₀.leaf_agree (fun f p hf x hx hx' => h.mem f (by simp [hf])
    (fun r' p' hr' hf' => by
      obtain ⟨rfl, -⟩ : r = r' ∧ p = p' := by simpa [hf] using hf'
      exact hW hr') x hx hx') hr hv

/-- Taking a page changes no translation. -/
theorem Taken.leaf (ht : Taken s s' f) (h : Typed S s Γ) (hr : S.Root r) {v : Nat}
    (hv : pml4Index v < S.top) : s'.leaf v r = s.leaf v r :=
  ((Builds.refl (W := fun _ => False) h).taken ht (u := .kernel) (by simp) (by simp)).leaf_other
    h hr id hv

/-- Filling a page that is no table changes none either. -/
theorem Edits.leaf (he : Edits s s' f) (h : Typed S s Γ) (hal : f % 4096 = 0)
    (hΓ : ∀ r p, Γ f ≠ .table r p) (hr : S.Root r) {v : Nat} (hv : pml4Index v < S.top) :
    s'.leaf v r = s.leaf v r := by
  refine h.leaf_agree (fun g p hg x hx hx' => he.mem x fun hc => ?_) hr hv
  have hgf : g = f := by
    have := (h.owned g (by simp [hg])).1
    omega
  exact hΓ r p (hgf ▸ hg)

/-! ### Translations -/

/-- An entry of a page table: nothing, or one of the pages `D`, writable or not. -/
def LeafOk (D : Nat → Prop) (e : Nat) : Prop :=
  e = 0 ∨ ∃ f, D f ∧ (e = f + 7 ∨ e = f + 5)

/-- All entries under the root `r` are of that kind. -/
def Leaves (top : Nat) (D : Nat → Prop) (s : Phys) (r : Nat) : Prop :=
  ∀ v e, pml4Index v < top → s.leaf v r = some e → LeafOk D e

/-- The data pages of a typing. -/
def IsData (Γ : Nat → Use) (f : Nat) : Prop := Γ f = .data

/-- The data pages that have come into use since `Γ₀`. -/
def IsNewData (Γ₀ Γ : Nat → Use) (f : Nat) : Prop := Γ f = .data ∧ Γ₀ f = .unowned

theorem LeafOk.mono {D D' : Nat → Prop} {e : Nat} (h : LeafOk D e) (hD : ∀ f, D f → D' f) :
    LeafOk D' e := by
  rcases h with h | ⟨f, hf, he⟩
  · exact Or.inl h
  · exact Or.inr ⟨f, hD f hf, he⟩

theorem Leaves.mono {top : Nat} {D D' : Nat → Prop} (h : Leaves top D s r)
    (hD : ∀ f, D f → D' f) : Leaves top D' s r :=
  fun v e hv he => (h v e hv he).mono hD

theorem Builds.data (h : Builds S W s₀ Γ₀ s Γ) : ∀ f, Γ₀ f = .data → Γ f = .data :=
  fun f hf => by rw [h.ext f (by simp [hf]), hf]

theorem Touches.data (h : Touches S r s s' Γ Γ') : ∀ f, Γ f = .data → Γ' f = .data :=
  fun f hf => by rw [h.ext f (by simp [hf]), hf]

/-- The page and the flags of an entry that points to a data page. -/
theorem leaf_frame {e : Nat} (hal : f % 4096 = 0) (hlt : f / 4096 < maxFrames)
    (he : e = f + 7 ∨ e = f + 5) : e &&& frame = f ∧ e % 2 = 1 ∧ e ≠ 2 ^ 64 - 1 ∧ e ≠ 0 := by
  have hf : f / 4096 < 65536 := hlt
  have hlt' : e < 2 ^ 64 := by omega
  rw [and_frame hlt']
  omega

theorem data_aligned (h : Typed S s Γ) (hf : Γ f = .data) :
    f % 4096 = 0 ∧ f / 4096 < maxFrames ∧ ¬ IsFree s.availFrames (f / 4096) :=
  h.owned f (by simp [hf])

/-- Writing bit 1 away. -/
theorem and_makeRdOnly (hal : f % 4096 = 0) (hlt : f / 4096 < maxFrames) :
    (f + 7) &&& makeRdOnly = f + 5 ∧ (f + 5) &&& makeRdOnly = f + 5 ∧ 0 &&& makeRdOnly = 0 := by
  have hf : f / 4096 < 65536 := hlt
  -- the mask keeps the address and takes bit 1 out of the flags
  obtain ⟨c, rfl⟩ : ∃ c, f = c * 2 ^ 12 := ⟨f / 4096, by omega⟩
  have hm : makeRdOnly = (2 ^ 52 - 1) * 2 ^ 12 + 0xFFD := by decide
  have hc : c &&& (2 ^ 52 - 1) = c := by
    rw [Bits.and_lowMask]
    omega
  refine ⟨?_, ?_, Nat.zero_and _⟩
  · rw [hm, Bits.and_split (by decide) (by decide), hc]
    rfl
  · rw [hm, Bits.and_split (by decide) (by decide), hc]
    rfl

/-- … and setting it. -/
theorem or_writeable (hal : f % 4096 = 0) :
    (f + 7) ||| writeable = f + 7 ∧ (f + 5) ||| writeable = f + 7 := by
  obtain ⟨c, rfl⟩ : ∃ c, f = c * 2 ^ 12 := ⟨f / 4096, by omega⟩
  have hw : writeable = 0 * 2 ^ 12 + 2 := by decide
  constructor
  · rw [hw, Bits.or_split (by decide) (by decide), Nat.or_zero]
    rfl
  · rw [hw, Bits.or_split (by decide) (by decide), Nat.or_zero]
    rfl

/-! ### New roots -/

/-- The shape with one root more. -/
def Shape.addRoot (S : Shape) (f : Nat) : Shape := { S with Root := fun r => r = f ∨ S.Root r }

theorem Shape.addRoot_dom {p : List Nat} : (S.addRoot f).Dom r p ↔
    (r = f ∧ p.length ≤ 3 ∧ (∀ i ∈ p, i < 512) ∧ ∀ i ∈ p.head?, i < S.top) ∨ S.Dom r p := by
  simp only [Shape.Dom, Shape.addRoot]
  tauto

/-- The memory after `getNewPML4ForUser`, slot by slot. -/
theorem getNewPML4ForUser_taken {cr3 : Nat} (hx : (s.getNewPML4ForUser cr3).2.exhausted = false) :
    Taken s (s.getNewPML4ForUser cr3).2 (s.getNewPML4ForUser cr3).1 ∧
      ∀ i < 511, entry (s.getNewPML4ForUser cr3).2.mem (s.getNewPML4ForUser cr3).1 i = 0 := by
  simp only [Phys.getNewPML4ForUser, Phys.store64_exhausted] at hx ⊢
  obtain ⟨ht, hz, -⟩ := kmalloc_taken hx
  refine ⟨ht.edit (store64_edits _ (by omega) (by omega)), fun i hi => ?_⟩
  -- only entry 511 is written after the page has been cleared
  rw [entry_store_other _ ht.aligned ht.aligned (by omega) (by omega)
    (fun hc => by have := (Prod.mk.inj hc).2; omega)]
  exact read64_eq_zero fun x hx hx' => hz x (by omega) (by omega)

/-- **A new root.** A page taken from the allocator becomes the root of an empty tree. -/
theorem Typed.newRoot (h : Typed S s Γ) (ht : Taken s s' f)
    (hz : ∀ i < S.top, entry s'.mem f i = 0) (hgood : S.Good f 0) :
    Typed (S.addRoot f) s' (Function.update Γ f (.table f [])) := by
  have hΓf := ht.unowned h
  have hk := h.taken ht (u := .kernel) (by simp)
  have hold : ∀ g, g ≠ f → Function.update Γ f (.table f []) g = Γ g :=
    fun g hg => Function.update_of_ne hg _ _
  have hold' : ∀ g, g ≠ f → Function.update Γ f .kernel g = Γ g :=
    fun g hg => Function.update_of_ne hg _ _
  have hroot : ¬ S.Root f := fun hr => by
    have := h.root hr
    rw [hΓf] at this
    cases this
  -- the tables of the other trees are what they were
  have hother : ∀ n r p, n ≠ f → Function.update Γ f (.table f []) n = .table r p →
      Function.update Γ f .kernel n = .table r p ∧ r ≠ f := by
    intro n r p hn hp
    rw [hold n hn] at hp
    refine ⟨by rw [hold' n hn, hp], ?_⟩
    rintro rfl
    exact hroot (h.rooted n r p hp)
  have hdom : ∀ r p, r ≠ f → (S.addRoot f).Dom r p → S.Dom r p := fun r p hr hd =>
    (Shape.addRoot_dom.mp hd).resolve_left fun hc => hr hc.1
  refine ⟨fun g hg => ?_, fun g r p hg => ?_, ⟨fun r hr => ?_, fun n r p i m hn hd hm => ?_⟩,
    fun g r p i hg hd => ?_⟩
  · by_cases hgf : g = f
    · subst hgf
      exact hk.owned g (by simp)
    · exact hk.owned g (by rwa [hold g hgf, ← hold' g hgf] at hg)
  · by_cases hgf : g = f
    · subst hgf
      rw [Function.update_self] at hg
      obtain ⟨rfl, -⟩ : g = r ∧ [] = p := by simpa using hg
      exact Or.inl rfl
    · exact Or.inr (hk.rooted g r p (hother g r p hgf hg).1)
  · rw [place_eq_some]
    rcases hr.1 with rfl | hS
    · exact Function.update_self ..
    · have hrf : r ≠ f := by
        rintro rfl
        exact hroot hS
      rw [hold r hrf, h.root hS]
  · rw [place_eq_some] at hn ⊢
    by_cases hnf : n = f
    · -- the new root has no children
      subst hnf
      obtain ⟨rfl, rfl⟩ : n = r ∧ [] = p := by simpa using hn
      rw [child_eq_none.mpr (by rw [hz i (hd.2.2.2 i (by simp))])] at hm
      cases hm
    · obtain ⟨hn', hrf⟩ := hother n r p hnf hn
      have hm' := hk.placed.step n r p i m (place_eq_some.mpr hn') (hdom r _ hrf hd) hm
      rw [place_eq_some] at hm'
      have hmf : m ≠ f := by
        rintro rfl
        simp at hm'
      rw [hold m hmf, ← hold' m hmf, hm']
  · by_cases hgf : g = f
    · subst hgf
      obtain ⟨rfl, rfl⟩ : g = r ∧ [] = p := by simpa using hg
      rw [hz i (hd.2.2.2 i (by simp))]
      exact hgood
    · obtain ⟨hg', hrf⟩ := hother g r p hgf hg
      exact hk.slots g r p i hg' (hdom r _ hrf hd)

theorem Builds.newRoot (h : Builds S W s₀ Γ₀ s Γ) (ht : Taken s s' f) (hW : W f)
    (hz : ∀ i < S.top, entry s'.mem f i = 0) (hgood : S.Good f 0) :
    Builds (S.addRoot f) W s₀ Γ₀ s' (Function.update Γ f (.table f [])) := by
  have hk := h.taken ht (u := .kernel) (by simp) (by simp)
  have hΓf := ht.unowned h.typed
  -- which pages have a use does not depend on what the use of `f` is
  have hiff : ∀ g, Function.update Γ f (.table f []) g = .unowned ↔
      Function.update Γ f .kernel g = .unowned := fun g => by
    by_cases hgf : g = f
    · subst hgf
      simp
    · rw [Function.update_of_ne hgf, Function.update_of_ne hgf]
  refine ⟨h.typed.newRoot ht hz hgood, fun g hg => ?_, fun g hg hg' => ?_, fun n => ?_, hk.live,
    hk.tasks, hk.mem⟩
  · have hgf : g ≠ f := by
      rintro rfl
      exact (h.used hg).1 hΓf
    rw [Function.update_of_ne hgf, h.ext g hg]
  · refine ⟨(hk.fresh g hg fun hc => hg' ((hiff g).mpr hc)).1, fun r p hp => ?_⟩
    by_cases hgf : g = f
    · subst hgf
      obtain ⟨rfl, -⟩ : g = r ∧ [] = p := by simpa using hp
      exact hW
    · rw [Function.update_of_ne hgf] at hg' hp
      exact (h.fresh g hg hg').2 r p hp
  · rw [hk.free, hiff]

/-- Nothing is translated under an empty root. -/
theorem leaf_emptyRoot {v : Nat} (hz : entry s.mem f (pml4Index v) = 0) : s.leaf v f = none := by
  simp only [Phys.leaf, Phys.pageTable, hz, Nat.zero_and, ne_eq, not_true_eq_false,
    if_false, Option.map_none]

end Sbunix
