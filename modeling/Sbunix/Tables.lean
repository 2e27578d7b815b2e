import Sbunix.Paging

/-!
# Typed page-table forests

The page tables of all address spaces form a forest in physical memory. A typing `Γ` says of
every frame what it is used for; a table frame carries the root it belongs to and the path of
slots from that root (`Use`). `Typed S s Γ` says that memory `s` bears `Γ` out for the roots,
the PML4 slots and the entries that the shape `S` speaks about.

* `Touches` bounds what an operation on the tree of one root may change; every other tree keeps
  its translations (`Touches.leaf_other`);
* `nextTable_spec`, `mapWith_spec`, `markPageAsRW_spec` are the operations on a tree;
* `Typed.of_agree` carries a typing over changes that are not about tables.
-/

namespace Sbunix

open ByteMem Placement

/-! ### Walks -/

/-- The table an entry points to. -/
def child (m : Mem) (table i : Nat) : Option Nat :=
  if entry m table i &&& present ≠ 0 then some (entry m table i &&& frame) else none

/-- The slots above the page table of `v`. -/
def path (v : Nat) : List Nat := [pml4Index v, pdptIndex v, pdtIndex v]

theorem pageTable_eq_walk (s : Phys) (v pml4 : Nat) :
    s.pageTable v pml4 = walk (child s.mem) pml4 (path v) := by
  simp only [Phys.pageTable, path, walk, child]
  split_ifs <;> simp_all

theorem child_congr {m m' : Mem} {table i : Nat} (hi : i < 512)
    (h : ∀ x, table ≤ x → x < table + 4096 → m x = m' x) : child m table i = child m' table i := by
  rw [child, child, entry_congr hi h]

theorem child_eq_none {m : Mem} {table i : Nat} :
    child m table i = none ↔ entry m table i % 2 = 0 := by
  unfold child
  rw [and_present]
  split
  · next hp => simp only [reduceCtorEq, false_iff]; exact hp
  · next hp => simp only [true_iff]; omega

/-! ### Typings -/

/-- What a physical frame is used for. -/
inductive Use
  | unowned
  | kernel
  | data
  | table (root : Nat) (path : List Nat)
  deriving DecidableEq

/-- The placement of the table frames. -/
def place (Γ : Nat → Use) (f : Nat) : Option (Nat × List Nat) :=
  match Γ f with
  | .table r p => some (r, p)
  | _ => none

theorem place_eq_some {Γ : Nat → Use} {f r : Nat} {p : List Nat} :
    place Γ f = some (r, p) ↔ Γ f = .table r p := by
  unfold place
  split
  · next r' p' h => simp [h]
  · next h =>
    simp only [reduceCtorEq, false_iff]
    exact h r p

theorem place_eq_none {Γ : Nat → Use} {f : Nat} (h : Γ f = .unowned) : place Γ f = none := by
  simp [place, h]

/-- Which trees are considered: those under `Root`, in the PML4 slots below `top`, with entries
above the page tables satisfying `Good`. -/
structure Shape where
  Root : Nat → Prop
  top : Nat
  Good : Nat → Nat → Prop

/-- The walks of a shape. -/
def Shape.Dom (S : Shape) (r : Nat) (p : List Nat) : Prop :=
  S.Root r ∧ p.length ≤ 3 ∧ (∀ i ∈ p, i < 512) ∧ ∀ i ∈ p.head?, i < S.top

theorem Shape.prefixClosed (S : Shape) : PrefixClosed S.Dom := by
  rintro r p i ⟨hr, hl, hi, ht⟩
  refine ⟨hr, by simp at hl; omega, fun j hj => hi j (by simp [hj]), fun j hj => ht j ?_⟩
  cases p with
  | nil => cases hj
  | cons k p => exact hj

theorem Shape.dom_nil {S : Shape} {r : Nat} (hr : S.Root r) : S.Dom r [] :=
  ⟨hr, by simp, by simp, by simp⟩

theorem Shape.dom_path {S : Shape} {r v : Nat} (hr : S.Root r) (hv : pml4Index v < S.top) :
    S.Dom r (path v) := by
  refine ⟨hr, le_refl 3, ?_, by simpa [path] using hv⟩
  simp only [path, List.mem_cons, List.not_mem_nil, or_false, forall_eq_or_imp, forall_eq]
  exact ⟨pml4Index_lt v, pdptIndex_lt v, pdtIndex_lt v⟩

theorem Shape.Dom.slot_lt {S : Shape} {r i : Nat} {p : List Nat} (h : S.Dom r (p ++ [i])) :
    i < 512 :=
  h.2.2.1 i (by simp)

/-- **Memory bears the typing out.** -/
structure Typed (S : Shape) (s : Phys) (Γ : Nat → Use) : Prop where
  /-- What has a use is a page with a bit in `availFrames`, and the bit is clear. -/
  owned : ∀ f, Γ f ≠ .unowned →
    f % 4096 = 0 ∧ f / 4096 < maxFrames ∧ ¬ IsFree s.availFrames (f / 4096)
  /-- Tables belong to trees that are considered. -/
  rooted : ∀ f r p, Γ f = .table r p → S.Root r
  /-- Table frames lie where the typing places them. -/
  placed : Placed (child s.mem) S.Dom (place Γ)
  /-- Entries above the page tables are good. -/
  slots : ∀ f r p i, Γ f = .table r p → S.Dom r (p ++ [i]) → S.Good r (entry s.mem f i)

variable {S : Shape} {s s' s'' : Phys} {Γ Γ' Γ'' : Nat → Use} {r : Nat}

theorem Typed.root (h : Typed S s Γ) (hr : S.Root r) : Γ r = .table r [] :=
  place_eq_some.mp (h.placed.root r (Shape.dom_nil hr))

theorem Typed.walk (h : Typed S s Γ) {p : List Nat} {f : Nat} (hp : S.Dom r p)
    (hw : walk (child s.mem) r p = some f) : Γ f = .table r p :=
  place_eq_some.mp (h.placed.walk S.prefixClosed hp hw)

theorem Typed.pageTable (h : Typed S s Γ) {v pt : Nat} (hr : S.Root r)
    (hv : pml4Index v < S.top) (hpt : s.pageTable v r = some pt) : Γ pt = .table r (path v) := by
  rw [pageTable_eq_walk] at hpt
  exact h.walk (Shape.dom_path hr hv) hpt

theorem Typed.unowned_of_free (h : Typed S s Γ) {f : Nat} (hf : IsFree s.availFrames (f / 4096)) :
    Γ f = .unowned := by
  by_contra hne
  exact (h.owned f hne).2.2 hf

/-- **Changes that are not about the tables that stay.** The tables of the roots of `S'` keep
their bytes, all other tables are given up, and whatever has a use still is a used page. -/
theorem Typed.restrict (h : Typed S s Γ) {S' : Shape} (hroot : ∀ r, S'.Root r → S.Root r)
    (htop : S'.top = S.top) (hgood : S'.Good = S.Good)
    (hmem : ∀ f r p, S'.Root r → Γ f = .table r p → ∀ x, f ≤ x → x < f + 4096 →
      s'.mem x = s.mem x)
    (hplace : ∀ f r p, Γ' f = .table r p ↔ S'.Root r ∧ Γ f = .table r p)
    (howned : ∀ f, Γ' f ≠ .unowned →
      f % 4096 = 0 ∧ f / 4096 < maxFrames ∧ ¬ IsFree s'.availFrames (f / 4096)) :
    Typed S' s' Γ' := by
  have hdom : ∀ r p, S'.Dom r p → S.Dom r p := fun r p hd =>
    ⟨hroot r hd.1, hd.2.1, hd.2.2.1, htop ▸ hd.2.2.2⟩
  have hpl : ∀ n r p, place Γ' n = some (r, p) ↔ S'.Root r ∧ place Γ n = some (r, p) := by
    intro n r p
    rw [place_eq_some, place_eq_some, hplace n r p]
  refine ⟨howned, fun f r p hf => ((hplace f r p).mp hf).1,
    ⟨fun r hr => (hpl r r []).mpr ⟨hr.1, h.placed.root r (hdom r [] hr)⟩, ?_⟩, ?_⟩
  · intro n r p i m hn hd hm
    obtain ⟨hr, hn⟩ := (hpl n r p).mp hn
    rw [child_congr hd.slot_lt (hmem n r p hr (place_eq_some.mp hn))] at hm
    exact (hpl m r _).mpr ⟨hr, h.placed.step n r p i m hn (hdom r _ hd) hm⟩
  · intro f r p i hf hd
    obtain ⟨hr, hf⟩ := (hplace f r p).mp hf
    rw [entry_congr hd.slot_lt (hmem f r p hr hf), hgood]
    exact h.slots f r p i hf (hdom r _ hd)

/-- Changes that are not about tables at all. -/
theorem Typed.of_agree (h : Typed S s Γ)
    (hmem : ∀ f r p, Γ f = .table r p → ∀ x, f ≤ x → x < f + 4096 → s'.mem x = s.mem x)
    (hplace : ∀ f r p, Γ' f = .table r p ↔ Γ f = .table r p)
    (howned : ∀ f, Γ' f ≠ .unowned →
      f % 4096 = 0 ∧ f / 4096 < maxFrames ∧ ¬ IsFree s'.availFrames (f / 4096)) :
    Typed S s' Γ' :=
  h.restrict (fun _ hr => hr) rfl rfl (fun f r p _ hf => hmem f r p hf)
    (fun f r p => by rw [hplace]; exact ⟨fun hf => ⟨h.rooted f r p hf, hf⟩, fun hf => hf.2⟩) howned

/-- A tree whose tables keep their bytes keeps its page tables. -/
theorem Typed.walk_agree (h : Typed S s Γ)
    (hmem : ∀ f p, Γ f = .table r p → ∀ x, f ≤ x → x < f + 4096 → s'.mem x = s.mem x)
    {p : List Nat} (hp : S.Dom r p) :
    Placement.walk (child s'.mem) r p = Placement.walk (child s.mem) r p := by
  -- only the walks from `r` are looked at
  have hpc : PrefixClosed fun r' p => r' = r ∧ S.Dom r' p := fun r' p i hd =>
    ⟨hd.1, S.prefixClosed r' p i hd.2⟩
  refine ((h.placed.mono (d := fun r' p => r' = r ∧ S.Dom r' p)
    fun _ _ hd => hd.2).walk_congr hpc ?_).2 r p ⟨rfl, hp⟩
  rintro n r' q i hn ⟨rfl, hd⟩
  exact child_congr hd.slot_lt (hmem n q (place_eq_some.mp hn))

/-- … and its translations. -/
theorem Typed.leaf_agree (h : Typed S s Γ)
    (hmem : ∀ f p, Γ f = .table r p → ∀ x, f ≤ x → x < f + 4096 → s'.mem x = s.mem x)
    (hr : S.Root r) {v : Nat} (hv : pml4Index v < S.top) : s'.leaf v r = s.leaf v r := by
  have hpt : s'.pageTable v r = s.pageTable v r := by
    rw [pageTable_eq_walk, pageTable_eq_walk, h.walk_agree hmem (Shape.dom_path hr hv)]
  unfold Phys.leaf
  rw [hpt]
  cases hw : s.pageTable v r with
  | none => rfl
  | some pt =>
    exact congrArg some (entry_congr (ptIndex_lt v) (hmem pt _ (h.pageTable hr hv hw)))

/-! ### What an operation on one tree may touch -/

/-- **The footprint of an operation on the tree under `r`.** Uses are only added, on pages that
were free and as tables that the tree reaches; its walks are extended; bytes and task records
change in tables of `r` and in pages taken from the allocator only. -/
structure Touches (S : Shape) (r : Nat) (s s' : Phys) (Γ Γ' : Nat → Use) : Prop where
  typed : Typed S s' Γ'
  ext : ∀ f, Γ f ≠ .unowned → Γ' f = Γ f
  fresh : ∀ f, Γ f = .unowned → Γ' f ≠ .unowned → IsFree s.availFrames (f / 4096) ∧
    ∃ p, S.Dom r p ∧ Γ' f = .table r p ∧ walk (child s'.mem) r p = some f
  walks : ∀ q f, S.Dom r q → walk (child s.mem) r q = some f → walk (child s'.mem) r q = some f
  free : ∀ n, IsFree s'.availFrames n ↔ IsFree s.availFrames n ∧ Γ' (n * 4096) = .unowned
  live : s'.exhausted = false → s.exhausted = false
  tasks : ∀ f, f % 4096 = 0 → (IsFree s.availFrames (f / 4096) → IsFree s'.availFrames (f / 4096)) →
    s'.tasks (kernbase + f) = s.tasks (kernbase + f)
  mem : ∀ x, (IsFree s.availFrames (x / 4096) → IsFree s'.availFrames (x / 4096)) →
    (∀ p, Γ (x / 4096 * 4096) ≠ .table r p) → s'.mem x = s.mem x

theorem Touches.refl (h : Typed S s Γ) : Touches S r s s Γ Γ where
  typed := h
  ext _ _ := rfl
  fresh _ hf hf' := absurd hf hf'
  walks _ _ _ hw := hw
  free n := by
    refine ⟨fun hn => ⟨hn, h.unowned_of_free ?_⟩, fun hn => hn.1⟩
    rwa [Nat.mul_div_cancel n (by decide)]
  live := id
  tasks _ _ _ := rfl
  mem _ _ _ := rfl

/-- A page that is free at the end of two operations was free in between. -/
theorem Touches.not_taken (h : Touches S r s s' Γ Γ') (h' : Touches S r s' s'' Γ' Γ'') {n : Nat}
    (hn : IsFree s.availFrames n → IsFree s''.availFrames n) :
    (IsFree s.availFrames n → IsFree s'.availFrames n) ∧
      (IsFree s'.availFrames n → IsFree s''.availFrames n) :=
  ⟨fun hf => ((h'.free n).mp (hn hf)).1, fun hf => hn ((h.free n).mp hf).1⟩

theorem Touches.trans (h : Touches S r s s' Γ Γ') (h' : Touches S r s' s'' Γ' Γ'') :
    Touches S r s s'' Γ Γ'' where
  typed := h'.typed
  ext f hf := by rw [h'.ext f (by rwa [h.ext f hf]), h.ext f hf]
  fresh f hf hf' := by
    by_cases hm : Γ' f = .unowned
    · obtain ⟨hfree, hp⟩ := h'.fresh f hm hf'
      exact ⟨((h.free _).mp hfree).1, hp⟩
    · obtain ⟨hfree, p, hp, hΓ, hw⟩ := h.fresh f hf hm
      exact ⟨hfree, p, hp, by rw [h'.ext f hm, hΓ], h'.walks p f hp hw⟩
  walks q f hq hw := h'.walks q f hq (h.walks q f hq hw)
  free n := by
    rw [h'.free, h.free]
    constructor
    · rintro ⟨⟨hn, -⟩, hu⟩
      exact ⟨hn, hu⟩
    · rintro ⟨hn, hu⟩
      refine ⟨⟨hn, ?_⟩, hu⟩
      by_contra hne
      exact hne ((h'.ext _ hne).symm.trans hu)
  live hx := h.live (h'.live hx)
  tasks f hf hn := by
    obtain ⟨h₁, h₂⟩ := h.not_taken h' hn
    rw [h'.tasks f hf h₂, h.tasks f hf h₁]
  mem x hn hp := by
    obtain ⟨h₁, h₂⟩ := h.not_taken h' hn
    rw [h'.mem x h₂ fun p hp' => ?_, h.mem x h₁ hp]
    -- a page that was not taken has not become a table of `r`
    by_cases hu : Γ (x / 4096 * 4096) = .unowned
    · have hne : Γ' (x / 4096 * 4096) ≠ .unowned := by simp [hp']
      have hfree := (h.fresh _ hu hne).1
      rw [Nat.mul_div_cancel _ (by decide)] at hfree
      exact hne ((h'.ext _ hne).symm.trans ((h'.free _).mp (hn hfree)).2)
    · exact hp p ((h.ext _ hu).symm.trans hp')

/-- The bytes of a page in use that is not a table of `r`. -/
theorem Touches.page (h : Touches S r s s' Γ Γ') (hs : Typed S s Γ) {f : Nat}
    (hf : Γ f ≠ .unowned) (hr : ∀ p, Γ f ≠ .table r p) {x : Nat} (hx : f ≤ x)
    (hx' : x < f + 4096) : s'.mem x = s.mem x := by
  obtain ⟨hal, -, hu⟩ := hs.owned f hf
  have hdiv : x / 4096 = f / 4096 := by omega
  refine h.mem x (fun hf => absurd (hdiv ▸ hf) hu) ?_
  rw [hdiv, show f / 4096 * 4096 = f by omega]
  exact hr

/-- **The other trees keep their translations.** -/
theorem Touches.leaf_other (h : Touches S r s s' Γ Γ') (hs : Typed S s Γ) {r' : Nat}
    (hr' : S.Root r') (hne : r' ≠ r) {v : Nat} (hv : pml4Index v < S.top) :
    s'.leaf v r' = s.leaf v r' :=
  hs.leaf_agree (fun _ _ hf _ hx hx' => h.page hs (by simp [hf]) (by simp [hf, hne]) hx hx')
    hr' hv

/-- Tables are added below `r`: its page tables keep their entries and the new ones are empty. -/
structure Grows (S : Shape) (r : Nat) (s s' : Phys) (Γ Γ' : Nat → Use) : Prop extends
    Touches S r s s' Γ Γ' where
  leaf : ∀ pt q i, Γ pt = .table r q → q.length = 3 → i < 512 →
    entry s'.mem pt i = entry s.mem pt i
  new : ∀ q pt i, S.Dom r q → q.length = 3 → walk (child s.mem) r q = none →
    walk (child s'.mem) r q = some pt → i < 512 → entry s'.mem pt i = 0

theorem Grows.refl (h : Typed S s Γ) : Grows S r s s Γ Γ where
  toTouches := .refl h
  leaf _ _ _ _ _ _ := rfl
  new _ _ _ _ _ hn hs _ := by rw [hn] at hs; cases hs

theorem Grows.trans (h : Grows S r s s' Γ Γ') (h' : Grows S r s' s'' Γ' Γ'') :
    Grows S r s s'' Γ Γ'' where
  toTouches := h.toTouches.trans h'.toTouches
  leaf pt q i hpt hq hi := by
    rw [h'.leaf pt q i (by rw [h.ext pt (by simp [hpt]), hpt]) hq hi, h.leaf pt q i hpt hq hi]
  new q pt i hq hl hn hs hi := by
    cases hm : walk (child s'.mem) r q with
    | none => exact h'.new q pt i hq hl hm hs hi
    | some pt' =>
      obtain rfl : pt' = pt := Option.some.inj ((h'.walks q pt' hq hm).symm.trans hs)
      rw [h'.leaf pt' q i (h.typed.walk hq hm) hl hi]
      exact h.new q pt' i hq hl hn hm hi

/-! ### One level of the walk -/

/-- The flags `flag` and the shape `S` fit: empty slots and fresh tables are good entries. -/
def Shape.Accepts (S : Shape) (r flag : Nat) : Prop :=
  flag < 4096 ∧ S.Good r 0 ∧
    ∀ f, f % 4096 = 0 → f / 4096 < maxFrames → S.Good r (f + (3 ||| flag))

/-- A page address in `availFrames` with flags is a 64-bit entry. -/
theorem entry_word_lt {f flag : Nat} (hf : f / 4096 < maxFrames) (hflag : flag < 4096) :
    f + (3 ||| flag) < 2 ^ 64 := by
  have h3 : 3 ||| flag < 2 ^ 12 := Nat.or_lt_two_pow (by decide) hflag
  have hf' : f / 4096 < 65536 := hf
  omega

/-- … that is present and points to the page. -/
theorem entry_word {f flag : Nat} (hf : f % 4096 = 0) (hflag : flag < 4096) :
    (f + (3 ||| flag)) % 2 = 1 ∧ (f + (3 ||| flag)) / 4096 * 4096 = f := by
  have h3 : 3 ||| flag < 2 ^ 12 := Nat.or_lt_two_pow (by decide) hflag
  have hodd : (3 ||| flag) % 2 = 1 := by
    have : (3 ||| flag).testBit 0 = true := by
      rw [Nat.testBit_or]
      rfl
    rwa [Nat.testBit_zero, decide_eq_true_eq] at this
  omega

theorem place_update {Γ : Nat → Use} {f r : Nat} {p : List Nat} :
    place (Function.update Γ f (.table r p)) = Function.update (place Γ) f (some (r, p)) := by
  funext g
  by_cases hg : g = f
  · subst hg
    simp [place]
  · simp [place, Function.update_of_ne hg]

/-- A free page `f` of `s` is a table without entries in `s'`, and `e` in slot `i` of `table` is its
entry; nothing else has changed. -/
structure NewTable (s s' : Phys) (table i f e : Nat) : Prop where
  aligned : f % 4096 = 0
  bound : f / 4096 < maxFrames
  isFree : IsFree s.availFrames (f / 4096)
  free : ∀ n, IsFree s'.availFrames n ↔ n ≠ f / 4096 ∧ IsFree s.availFrames n
  self : entry s'.mem table i = e
  zero : ∀ j < 512, entry s'.mem f j = 0
  keep : ∀ n j, n % 4096 = 0 → n ≠ f → j < 512 → (n, j) ≠ (table, i) →
    entry s'.mem n j = entry s.mem n j
  mem : ∀ x, ¬ (f ≤ x ∧ x < f + 4096) → ¬ (table ≤ x ∧ x < table + 4096) → s'.mem x = s.mem x
  tasks : ∀ g ≠ f, s'.tasks (kernbase + g) = s.tasks (kernbase + g)

/-- A table that is not there is taken from the allocator. -/
theorem nextTable_new {i flag table : Nat} (hal : table % 4096 = 0)
    (hused : ¬ IsFree s.availFrames (table / 4096)) (hi : i < 512) (hflag : flag < 4096)
    (he : ¬ entry s.mem table i &&& present ≠ 0)
    (hx : (s.nextTable table i flag).2.exhausted = false) :
    s.exhausted = false ∧ NewTable s (s.nextTable table i flag).2 table i
      (s.nextTable table i flag).1 ((s.nextTable table i flag).1 + (3 ||| flag)) := by
  obtain ⟨f, t, hft⟩ : ∃ f t, s.pageAllocator = (f, t) := ⟨_, _, rfl⟩
  have hnt : s.nextTable table i flag =
      (f, (t.memset f).store64 (table + 8 * i) (f ||| present ||| writeable ||| flag)) := by
    simp only [Phys.nextTable, if_neg he, hft]
  rw [hnt] at hx ⊢
  dsimp only at hx ⊢
  -- the allocator hands out a page that is not the table
  have halloc := Phys.pageAllocator_spec (s := s) (by rw [hft]; simpa using hx)
  have htmem : t.mem = s.mem := by
    have := s.pageAllocator_mem
    rwa [hft] at this
  have httasks : t.tasks = s.tasks := by
    have := s.pageAllocator_tasks
    rwa [hft] at this
  rw [hft] at halloc
  dsimp only at halloc
  obtain ⟨hlive, half, hlt, hfree, hbits⟩ := halloc
  have hne : table ≠ f := by
    rintro rfl
    exact hused hfree
  rw [or_flags half hflag]
  refine ⟨hlive, half, hlt, hfree, fun n => ?_, entry_store_self _ _ _ (entry_word_lt hlt hflag),
    fun j hj => ?_, fun n j hn hnf hj hni => ?_, fun x hxf hxt => ?_, fun g hg => ?_⟩
  · rw [Phys.store64_availFrames, Phys.memset_availFrames, hbits]
  · rw [entry_store_other _ hal half hi hj (by simp [hne.symm]), Phys.entry_memset _ hj]
  · rw [entry_store_other _ hal hn hi hj hni]
    refine (entry_congr hj fun x hx₁ hx₂ => ?_).trans (congrArg (entry · n j) htmem)
    rw [Phys.memset_mem, if_neg (by omega)]
  · rw [store64_mem_of_out _ hi hxt, Phys.memset_mem, if_neg hxf, htmem]
  · rw [Phys.store64_tasks, Phys.memset_tasks_of_ne _ hg, httasks]

section NewTable

variable {p : List Nat} {i flag table f : Nat}

/-- The placement grows by the new table, and so does the walk that leads to it. -/
theorem NewTable.link (hL : NewTable s s' table i f (f + (3 ||| flag))) (h : Typed S s Γ)
    (hd : S.Dom r (p ++ [i])) (hw : walk (child s.mem) r p = some table)
    (hnone : child s.mem table i = none) (hflag : flag < 4096) :
    Placed (child s'.mem) S.Dom (place (Function.update Γ f (.table r (p ++ [i])))) ∧
      ∀ r' q, S.Dom r' q →
        (r' = r ∧ q = p ++ [i] → walk (child s'.mem) r' q = some f) ∧
        (¬ (r' = r ∧ q = p ++ [i]) → walk (child s'.mem) r' q = walk (child s.mem) r' q) := by
  have hΓf : Γ f = .unowned := h.unowned_of_free hL.isFree
  have hchild : child s'.mem table i = some f := by
    rw [child, hL.self, and_present, and_frame (entry_word_lt hL.bound hflag),
      (entry_word hL.aligned hflag).1, (entry_word hL.aligned hflag).2, if_pos (by decide)]
  rw [place_update]
  refine h.placed.link S.prefixClosed hd hw hnone (place_eq_none hΓf) hchild (fun j hj => ?_)
    fun n r' p' j hn hj hni => ?_
  · rw [child_eq_none, hL.zero j hj.slot_lt]
  · have hn' := place_eq_some.mp hn
    have hnf : n ≠ f := by
      rintro rfl
      rw [hΓf] at hn'
      cases hn'
    rw [child, child, hL.keep n j (h.owned n (by simp [hn'])).1 hnf hj.slot_lt hni]

theorem NewTable.typed (hL : NewTable s s' table i f (f + (3 ||| flag))) (h : Typed S s Γ)
    (hd : S.Dom r (p ++ [i])) (hw : walk (child s.mem) r p = some table)
    (hnone : child s.mem table i = none) (hS : S.Accepts r flag) :
    Typed S s' (Function.update Γ f (.table r (p ++ [i]))) := by
  have hΓt : Γ table = .table r p := h.walk (S.prefixClosed r p i hd) hw
  have hold : ∀ g, g ≠ f → Function.update Γ f (.table r (p ++ [i])) g = Γ g :=
    fun g hg => Function.update_of_ne hg _ _
  refine ⟨fun g hg => ?_, fun g r' p' hg => ?_, (hL.link h hd hw hnone hS.1).1,
    fun g r' p' j hg hj => ?_⟩
  · -- owned
    rw [hL.free]
    by_cases hgf : g = f
    · subst hgf
      exact ⟨hL.aligned, hL.bound, fun hc => hc.1 rfl⟩
    · rw [hold g hgf] at hg
      obtain ⟨h₁, h₂, h₃⟩ := h.owned g hg
      exact ⟨h₁, h₂, fun hc => h₃ hc.2⟩
  · -- rooted
    by_cases hgf : g = f
    · subst hgf
      rw [Function.update_self] at hg
      obtain ⟨rfl, -⟩ : r = r' ∧ p ++ [i] = p' := by simpa using hg
      exact hd.1
    · rw [hold g hgf] at hg
      exact h.rooted g r' p' hg
  · -- slots
    by_cases hgf : g = f
    · subst hgf
      rw [Function.update_self] at hg
      obtain ⟨rfl, rfl⟩ : r = r' ∧ p ++ [i] = p' := by simpa using hg
      rw [hL.zero j hj.slot_lt]
      exact hS.2.1
    · rw [hold g hgf] at hg
      by_cases hgi : (g, j) = (table, i)
      · obtain ⟨rfl, rfl⟩ := Prod.mk.inj hgi
        obtain ⟨rfl, rfl⟩ : r = r' ∧ p = p' := by simpa [hΓt] using hg
        rw [hL.self]
        exact hS.2.2 f hL.aligned hL.bound
      · rw [hL.keep g j (h.owned g (by simp [hg])).1 hgf hj.slot_lt hgi]
        exact h.slots g r' p' j hg hj

theorem NewTable.touches (hL : NewTable s s' table i f (f + (3 ||| flag))) (h : Typed S s Γ)
    (hd : S.Dom r (p ++ [i])) (hw : walk (child s.mem) r p = some table)
    (hnone : child s.mem table i = none) (hS : S.Accepts r flag) (hlive : s.exhausted = false) :
    Touches S r s s' Γ (Function.update Γ f (.table r (p ++ [i]))) := by
  have hΓf : Γ f = .unowned := h.unowned_of_free hL.isFree
  have hΓt : Γ table = .table r p := h.walk (S.prefixClosed r p i hd) hw
  obtain ⟨htal, -, -⟩ := h.owned table (by simp [hΓt])
  have hal := hL.aligned
  have hused : ¬ IsFree s'.availFrames (f / 4096) := fun hc => ((hL.free _).mp hc).1 rfl
  obtain ⟨-, hwalks⟩ := hL.link h hd hw hnone hS.1
  have hold : ∀ g, g ≠ f → Function.update Γ f (.table r (p ++ [i])) g = Γ g :=
    fun g hg => Function.update_of_ne hg _ _
  refine ⟨hL.typed h hd hw hnone hS, ?_, ?_, ?_, ?_, fun _ => hlive, ?_, ?_⟩
  · -- ext
    intro g hg
    refine hold g ?_
    rintro rfl
    exact hg hΓf
  · -- fresh
    intro g hg hg'
    by_cases hgf : g = f
    · subst hgf
      exact ⟨hL.isFree, p ++ [i], hd, Function.update_self .., (hwalks r _ hd).1 ⟨rfl, rfl⟩⟩
    · rw [hold g hgf] at hg'
      exact absurd hg hg'
  · -- walks
    intro q pt hq hpt
    rw [(hwalks r q hq).2, hpt]
    rintro ⟨-, rfl⟩
    rw [walk_snoc, hw, Option.bind_some, hnone] at hpt
    cases hpt
  · -- free
    intro n
    rw [hL.free]
    constructor
    · rintro ⟨hn, hnfree⟩
      refine ⟨hnfree, ?_⟩
      rw [hold _ (by omega)]
      exact h.unowned_of_free (by rwa [Nat.mul_div_cancel n (by decide)])
    · rintro ⟨hnfree, hn⟩
      refine ⟨fun hnf => ?_, hnfree⟩
      rw [show n * 4096 = f by omega, Function.update_self] at hn
      cases hn
  · -- tasks
    intro g hg hgn
    refine hL.tasks g ?_
    rintro rfl
    exact hused (hgn hL.isFree)
  · -- mem
    intro x hxn hxtab
    refine hL.mem x (fun hc => hused ?_) (fun hc => hxtab p ?_)
    · rw [show x / 4096 = f / 4096 by omega] at hxn
      exact hxn hL.isFree
    · rwa [show x / 4096 * 4096 = table by omega]

theorem NewTable.grows (hL : NewTable s s' table i f (f + (3 ||| flag))) (h : Typed S s Γ)
    (hd : S.Dom r (p ++ [i])) (hw : walk (child s.mem) r p = some table)
    (hnone : child s.mem table i = none) (hS : S.Accepts r flag) (hlive : s.exhausted = false) :
    Grows S r s s' Γ (Function.update Γ f (.table r (p ++ [i]))) := by
  have hΓf : Γ f = .unowned := h.unowned_of_free hL.isFree
  have hΓt : Γ table = .table r p := h.walk (S.prefixClosed r p i hd) hw
  have hpl : p.length < 3 := by
    have := hd.2.1
    simp at this
    omega
  obtain ⟨-, hwalks⟩ := hL.link h hd hw hnone hS.1
  refine ⟨hL.touches h hd hw hnone hS hlive, ?_, ?_⟩
  · -- leaf
    intro pt q j hpt hq hj
    refine hL.keep pt j (h.owned pt (by simp [hpt])).1 ?_ hj ?_
    · rintro rfl
      rw [hΓf] at hpt
      cases hpt
    · -- the table with the new entry is none at the bottom
      intro hc
      obtain ⟨rfl, -⟩ := Prod.mk.inj hc
      obtain rfl : p = q := by simpa [hΓt] using hpt
      omega
  · -- new
    intro q pt j hq hql hqn hqs hj
    by_cases hqp : q = p ++ [i]
    · rw [(hwalks r q hq).1 ⟨rfl, hqp⟩] at hqs
      obtain rfl := Option.some.inj hqs
      exact hL.zero j hj
    · rw [(hwalks r q hq).2 (fun hc => hqp hc.2), hqn] at hqs
      cases hqs

end NewTable

/-- **One level of the walk.** The table found or entered is the one slot `i` leads to. -/
theorem nextTable_spec (h : Typed S s Γ) {p : List Nat} {i flag table : Nat}
    (hd : S.Dom r (p ++ [i])) (hw : walk (child s.mem) r p = some table)
    (hx : (s.nextTable table i flag).2.exhausted = false) (hS : S.Accepts r flag) :
    ∃ Γ', Grows S r s (s.nextTable table i flag).2 Γ Γ' ∧
      walk (child (s.nextTable table i flag).2.mem) r (p ++ [i]) =
        some (s.nextTable table i flag).1 := by
  by_cases he : entry s.mem table i &&& present ≠ 0
  · -- the table is there
    have hnt : s.nextTable table i flag = (entry s.mem table i &&& frame, s) := by
      simp only [Phys.nextTable, if_pos he]
    rw [hnt]
    refine ⟨Γ, .refl h, ?_⟩
    rw [walk_snoc, hw, Option.bind_some, child, if_pos he]
  · have hΓt : Γ table = .table r p := h.walk (S.prefixClosed r p i hd) hw
    obtain ⟨hal, -, hused⟩ := h.owned table (by simp [hΓt])
    have hnone : child s.mem table i = none := if_neg he
    obtain ⟨hlive, hL⟩ := nextTable_new hal hused hd.slot_lt hS.1 he hx
    exact ⟨_, hL.grows h hd hw hnone hS hlive,
      ((hL.link h hd hw hnone hS.1).2 r _ hd).1 ⟨rfl, rfl⟩⟩

theorem nextTable_live {table i flag : Nat} (h : (s.nextTable table i flag).2.exhausted = false) :
    s.exhausted = false := by
  simp only [Phys.nextTable] at h
  split at h
  · exact h
  · rw [Phys.store64_exhausted, Phys.memset_exhausted] at h
    exact (Phys.pageAllocator_spec h).1

/-! ### Whole operations -/

/-- An entry is kept, or the page table it would be in has come to exist and is empty. -/
def LeafKept (old new : Option Nat) : Prop := new = old ∨ (old = none ∧ new = some 0)

/-- The same for what `getPhysicalPageAddr` returns. -/
def Kept (old new : Nat) : Prop := new = old ∨ (old = 2 ^ 64 - 1 ∧ new = 0)

theorem LeafKept.kept {v w : Nat} {cr3 : Nat} (h : LeafKept (s.leaf v cr3) (s'.leaf w cr3)) :
    Kept (s.getPhysicalPageAddr v cr3) (s'.getPhysicalPageAddr w cr3) := by
  rw [getPhysicalPageAddr_eq, getPhysicalPageAddr_eq]
  rcases h with h | ⟨h, h'⟩
  · exact Or.inl (by rw [h])
  · exact Or.inr ⟨by rw [h]; rfl, by rw [h']; rfl⟩

theorem LeafKept.trans {a b c : Option Nat} (h : LeafKept a b) (h' : LeafKept b c) :
    LeafKept a c := by
  rcases h with rfl | ⟨ha, hb⟩
  · exact h'
  · rcases h' with rfl | ⟨hb', -⟩
    · exact Or.inr ⟨ha, hb⟩
    · rw [hb'] at hb
      cases hb

/-- A present entry is kept as it is, and nothing becomes present. -/
theorem LeafKept.eq_some {a b : Option Nat} {e : Nat} (h : LeafKept a b) (he : e ≠ 0) :
    b = some e ↔ a = some e := by
  rcases h with rfl | ⟨rfl, rfl⟩
  · exact Iff.rfl
  · simp [he.symm]

/-- Two addresses on different pages of the 48-bit address space. -/
def OtherPage (v w : Nat) : Prop := w % 2 ^ 48 / 4096 ≠ v % 2 ^ 48 / 4096

theorem Grows.kept (h : Grows S r s s' Γ Γ') (hs : Typed S s Γ) (hr : S.Root r) {w : Nat}
    (hw : pml4Index w < S.top) : LeafKept (s.leaf w r) (s'.leaf w r) := by
  have hd := Shape.dom_path hr hw
  unfold Phys.leaf
  rw [pageTable_eq_walk, pageTable_eq_walk]
  cases hpt : walk (child s.mem) r (path w) with
  | some pt =>
    rw [h.walks _ _ hd hpt]
    exact Or.inl (congrArg some (h.leaf pt _ _ (hs.walk hd hpt) rfl (ptIndex_lt w)))
  | none =>
    cases hpt' : walk (child s'.mem) r (path w) with
    | none => exact Or.inl rfl
    | some pt => exact Or.inr ⟨rfl, congrArg some (h.new _ pt _ hd rfl hpt hpt' (ptIndex_lt w))⟩

/-- **A store into the entry of `v`** changes the translation of its page and nothing else. -/
theorem storeLeaf_spec (h : Typed S s Γ) (hr : S.Root r) {v pt e : Nat}
    (hv : pml4Index v < S.top) (hpt : s.pageTable v r = some pt) (he : e < 2 ^ 64) :
    Touches S r s (s.store64 (pt + 8 * ptIndex v) e) Γ Γ ∧
      (s.store64 (pt + 8 * ptIndex v) e).leaf v r = some e ∧
      ∀ w, pml4Index w < S.top → OtherPage v w →
        (s.store64 (pt + 8 * ptIndex v) e).leaf w r = s.leaf w r := by
  have hΓ := h.pageTable hr hv hpt
  have hal := (h.owned pt (by simp [hΓ])).1
  set s' := s.store64 (pt + 8 * ptIndex v) e with hs'
  -- page tables are not on the way to page tables
  have hkeep : ∀ n r' q i, Γ n = .table r' q → S.Dom r' (q ++ [i]) →
      entry s'.mem n i = entry s.mem n i := by
    intro n r' q i hn hd
    refine entry_store_other _ hal (h.owned n (by simp [hn])).1 (ptIndex_lt v) hd.slot_lt ?_
    intro hc
    obtain ⟨rfl, -⟩ := Prod.mk.inj hc
    obtain ⟨rfl, rfl⟩ : r' = r ∧ q = path v := by simpa [hn] using hΓ
    have := hd.2.1
    simp [path] at this
  obtain ⟨hplaced, hwalks⟩ := h.placed.walk_congr (c := child s'.mem) S.prefixClosed
    fun n r' q i hn hd => by rw [child, child, hkeep n r' q i (place_eq_some.mp hn) hd]
  have hsame : ∀ w, pml4Index w < S.top → s'.pageTable w r = s.pageTable w r := fun w hw => by
    rw [pageTable_eq_walk, pageTable_eq_walk, hwalks r _ (Shape.dom_path hr hw)]
  refine ⟨⟨⟨h.owned, h.rooted, hplaced, ?_⟩, fun _ _ => rfl, fun _ hf hf' => absurd hf hf',
    fun q f hq hw => (hwalks r q hq).trans hw, ?_, id, fun _ _ _ => rfl, ?_⟩, ?_, ?_⟩
  · intro n r' q i hn hd
    rw [hkeep n r' q i hn hd]
    exact h.slots n r' q i hn hd
  · intro n
    refine ⟨fun hn => ⟨hn, h.unowned_of_free ?_⟩, fun hn => hn.1⟩
    rwa [Nat.mul_div_cancel n (by decide)]
  · intro x _ hx
    refine store64_mem_of_out s (ptIndex_lt v) fun hc => hx (path v) ?_
    rwa [show x / 4096 * 4096 = pt by omega]
  · unfold Phys.leaf
    rw [hsame v hv, hpt]
    exact congrArg some (entry_store_self _ _ _ he)
  · intro w hw hne
    unfold Phys.leaf
    rw [hsame w hw]
    cases hpt' : s.pageTable w r with
    | none => rfl
    | some pt' =>
      have hΓ' := h.pageTable hr hw hpt'
      refine congrArg some <| entry_store_other _ hal (h.owned pt' (by simp [hΓ'])).1 (ptIndex_lt v)
        (ptIndex_lt w) fun hc => hne ?_
      obtain ⟨rfl, hi⟩ := Prod.mk.inj hc
      rw [hΓ] at hΓ'
      simp only [Use.table.injEq, path, List.cons.injEq, and_true, true_and] at hΓ'
      exact (same_indices_iff w v).mp ⟨hΓ'.1.symm, hΓ'.2.1.symm, hΓ'.2.2.symm, hi⟩

theorem mapWith_alive {flag v p pml4 : Nat} (h : (s.mapWith flag v p pml4).exhausted = false) :
    s.exhausted = false := by
  simp only [Phys.mapWith, Phys.store64_exhausted] at h
  exact nextTable_live (nextTable_live (nextTable_live h))

/-- **Mapping a page.** -/
theorem mapWith_spec (h : Typed S s Γ) (hr : S.Root r) {v p flag : Nat}
    (hv : pml4Index v < S.top) (hp : p % 4096 = 0) (hp' : p < 2 ^ 52)
    (hx : (s.mapWith flag v p r).exhausted = false) (hS : S.Accepts r flag) :
    ∃ Γ', Touches S r s (s.mapWith flag v p r) Γ Γ' ∧
      (s.mapWith flag v p r).leaf v r = some (p + (3 ||| flag)) ∧
      ∀ w, pml4Index w < S.top → OtherPage v w →
        LeafKept (s.leaf w r) ((s.mapWith flag v p r).leaf w r) := by
  have hd := Shape.dom_path hr hv
  simp only [Phys.mapWith, Phys.store64_exhausted, or_flags hp hS.1] at hx ⊢
  -- the three levels, one after the other
  set pdpt := s.nextTable r (pml4Index v) flag
  set pdt := pdpt.2.nextTable pdpt.1 (pdptIndex v) flag
  set pt := pdt.2.nextTable pdt.1 (pdtIndex v) flag
  have hx₂ := nextTable_live hx
  have hd₂ : S.Dom r ([pml4Index v] ++ [pdptIndex v]) := S.prefixClosed _ _ (pdtIndex v) hd
  have hd₁ : S.Dom r ([] ++ [pml4Index v]) := S.prefixClosed _ _ (pdptIndex v) hd₂
  obtain ⟨Γ₁, hg₁, hw₁⟩ := nextTable_spec h hd₁ rfl (nextTable_live hx₂) hS
  obtain ⟨Γ₂, hg₂, hw₂⟩ := nextTable_spec hg₁.typed hd₂ hw₁ hx₂ hS
  obtain ⟨Γ₃, hg₃, hw₃⟩ := nextTable_spec hg₂.typed (p := [pml4Index v, pdptIndex v]) hd hw₂ hx hS
  have hg : Grows S r s pt.2 Γ Γ₃ := (hg₁.trans hg₂).trans hg₃
  -- the entry itself
  have hpt : pt.2.pageTable v r = some pt.1 := by
    rw [pageTable_eq_walk]
    exact hw₃
  have he : p + (3 ||| flag) < 2 ^ 64 := by
    have h3 : 3 ||| flag < 2 ^ 12 := Nat.or_lt_two_pow (by decide) hS.1
    omega
  obtain ⟨ht, hself, hother⟩ := storeLeaf_spec hg.typed hr hv hpt he
  refine ⟨Γ₃, hg.toTouches.trans ht, hself, fun w hw hne => ?_⟩
  rw [hother w hw hne]
  exact hg.kept h hr hw

/-- The addresses of one page have one entry. -/
theorem leaf_same_page {v w : Nat} (h : ¬ OtherPage v w) (cr3 : Nat) :
    s.leaf w cr3 = s.leaf v cr3 := by
  obtain ⟨h₁, h₂, h₃, h₄⟩ := (same_indices_iff w v).mpr (not_not.mp h)
  unfold Phys.leaf Phys.pageTable
  rw [h₁, h₂, h₃, h₄]

theorem OtherPage.symm {v w : Nat} (h : OtherPage v w) : OtherPage w v := Ne.symm h

theorem getPhysicalPageAddr_lt (s : Phys) (v cr3 : Nat) : s.getPhysicalPageAddr v cr3 < 2 ^ 64 := by
  unfold Phys.getPhysicalPageAddr
  split
  · exact entry_lt _ _ _
  · decide

/-- **Changing the writable bit of an entry.** Without a page table nothing happens. -/
theorem markPageAsRW_spec (h : Typed S s Γ) (hr : S.Root r) {v : Nat} {b : Bool}
    (hv : pml4Index v < S.top) :
    Touches S r s (s.markPageAsRW v r b) Γ Γ ∧
      (s.markPageAsRW v r b).leaf v r =
        (s.leaf v r).map (fun e => if b then e &&& makeRdOnly else e ||| writeable) ∧
      ∀ w, pml4Index w < S.top → OtherPage v w →
        (s.markPageAsRW v r b).leaf w r = s.leaf w r := by
  cases hpt : s.pageTable v r with
  | none =>
    have hm : s.markPageAsRW v r b = s := by
      simp only [Phys.markPageAsRW, hpt]
    rw [hm]
    refine ⟨.refl h, ?_, fun _ _ _ => rfl⟩
    simp only [Phys.leaf, hpt, Option.map_none]
  | some pt =>
    have hm : s.markPageAsRW v r b = s.store64 (pt + 8 * ptIndex v)
        (if b then entry s.mem pt (ptIndex v) &&& makeRdOnly
          else entry s.mem pt (ptIndex v) ||| writeable) := by
      simp only [Phys.markPageAsRW, hpt]
    have he : (if b then entry s.mem pt (ptIndex v) &&& makeRdOnly
        else entry s.mem pt (ptIndex v) ||| writeable) < 2 ^ 64 := by
      split
      · exact lt_of_le_of_lt Nat.and_le_left (entry_lt _ _ _)
      · exact Nat.or_lt_two_pow (entry_lt _ _ _) (by decide)
    have hleaf : s.leaf v r = some (entry s.mem pt (ptIndex v)) := by
      simp only [Phys.leaf, hpt, Option.map_some]
    rw [hm, hleaf]
    exact storeLeaf_spec h hr hv hpt he

end Sbunix
