import Sbunix.AddressSpace

/-!
# Releasing an address space

`FreePageEntries` and `FreePageTables`, which `exit`, `kill` and `exitpid` run on the address
space of the task that ends.

* `Teardown.freePageEntries` — the frames that are released are those of the task's own pages
  for which the lookup of `FreePageEntries` finds nobody: it takes the *physical* address of a
  page for a virtual one (`Freed`);
* `freePageTables_spec` — of the tables only those behind the entries of the PML4 are released:
  the pointers to the levels below keep their flags, and the words found there have an even
  first byte;
* `Teardown.typed` — what is left is a typed forest without the released tree.
-/

namespace Sbunix

open ByteMem Placement

variable {S : Shape} {s s' : Phys} {Γ : Nat → Use} {r : Nat}

/-! ### Lookups -/

/-- `getPhysicalPageAddr` finds page `f` behind `v`. -/
def Phys.MapsTo (s : Phys) (v cr3 f : Nat) : Prop :=
  s.getPhysicalPageAddr v cr3 ≠ 2 ^ 64 - 1 ∧ s.getPhysicalPageAddr v cr3 ≠ 0 ∧
    s.getPhysicalPageAddr v cr3 &&& frame = f

instance (s : Phys) (v cr3 f : Nat) : Decidable (s.MapsTo v cr3 f) :=
  inferInstanceAs (Decidable (_ ∧ _ ∧ _))

/-- A lookup sees the entry only. -/
theorem Phys.mapsTo_congr {s t : Phys} {v cr3 f : Nat} (h : t.leaf v cr3 = s.leaf v cr3) :
    t.MapsTo v cr3 f ↔ s.MapsTo v cr3 f := by
  simp only [Phys.MapsTo, getPhysicalPageAddr_eq, h]

/-- … and the page only. -/
theorem Phys.mapsTo_frame (s : Phys) (v cr3 f : Nat) :
    s.MapsTo (v &&& frame) cr3 f ↔ s.MapsTo v cr3 f := by
  simp only [Phys.MapsTo, getPhysicalPageAddr_eq, leaf_frame_page]

/-- Under good entries a lookup finds data pages. -/
theorem Leaves.mapsTo_iff (h : Typed S s Γ) (hl : Leaves S.top (IsData Γ) s r) {v f : Nat}
    (hv : pml4Index v < S.top) :
    s.MapsTo v r f ↔ Γ f = .data ∧ ∃ e, s.leaf v r = some e ∧ (e = f + 7 ∨ e = f + 5) := by
  unfold Phys.MapsTo
  rw [getPhysicalPageAddr_eq]
  cases hlf : s.leaf v r with
  | none => simp
  | some e =>
    simp only [Option.getD_some, Option.some.injEq, exists_eq_left']
    constructor
    · rintro ⟨-, h0, rfl⟩
      obtain rfl | ⟨g, hg, hge⟩ := hl v e hv hlf
      · exact absurd rfl h0
      · obtain ⟨hal, hlt, -⟩ := data_aligned h hg
        rw [(leaf_frame hal hlt hge).1]
        exact ⟨hg, hge⟩
    · rintro ⟨hf, hfe⟩
      obtain ⟨hal, hlt, -⟩ := data_aligned h hf
      obtain ⟨h₁, -, h₂, h₃⟩ := leaf_frame hal hlt hfe
      exact ⟨h₂, h₃, h₁⟩

/-- The sharing test of `FreePageEntries`. -/
theorem countSharers_eq {task f : Nat} {others : List Nat}
    (hseg : Chain.Seg s.next (s.next task) others task) (hnot : task ∉ others)
    (hlen : others.length < walkFuel) :
    s.countSharers task f =
      some (others.countP fun a => decide (s.MapsTo f (s.tasks a).regs.cr3 f)) := by
  have hc := Chain.collect_of_seg (q := (· == task)) hseg
    (fun y hy => beq_false_of_ne fun h => hnot (h ▸ hy)) (beq_self_eq_true task) hlen
  simp only [Phys.countSharers, hc, Option.bind_eq_bind, Option.bind_some, Option.pure_def]
  exact congrArg some (List.countP_congr fun a _ => by
    rw [decide_eq_true_iff, decide_eq_true_iff]
    rfl)

/-! ### FreePageEntries -/

/-- The pages `R` are cleared and given back to the allocator. -/
structure Released (R : Nat → Prop) (s s' : Phys) : Prop where
  bits : ∀ n, IsFree s'.availFrames n ↔ IsFree s.availFrames n ∨ R (n * 4096)
  exhausted : s'.exhausted = s.exhausted
  kept : ∀ x, ¬ R (x / 4096 * 4096) → s'.mem x = s.mem x
  zero : ∀ x, R (x / 4096 * 4096) → s'.mem x = 0
  tasks : ∀ f, ¬ R f → s'.tasks (kernbase + f) = s.tasks (kernbase + f)

theorem Released.refl (s : Phys) : Released (fun _ => False) s s :=
  ⟨by simp, rfl, fun _ _ => rfl, fun _ h => h.elim, fun _ _ => rfl⟩

theorem Released.congr {R R' : Nat → Prop} (h : Released R s s') (hR : ∀ f, R f ↔ R' f) :
    Released R' s s' := by
  rwa [show R' = R from funext fun f => propext (hR f).symm]

/-- `kdealloc` releases one page more. -/
theorem Released.kdealloc {R : Nat → Prop} (h : Released R s s') {f : Nat} (hal : f % 4096 = 0) :
    Released (fun g => R g ∨ g = f) s (s'.kdealloc f) where
  bits n := by
    simp only [Phys.kdealloc, Phys.pageDeAllocator, pageDeAllocator, Phys.memset_availFrames,
      isFree_markasFree, h.bits]
    rw [show n = f / 0x1000 ↔ n * 4096 = f by omega]
    tauto
  exhausted := by
    simp only [Phys.kdealloc, Phys.pageDeAllocator, Phys.memset_exhausted, h.exhausted]
  kept x hx := by
    simp only [Phys.kdealloc, Phys.pageDeAllocator]
    rw [Phys.memset_mem, if_neg fun hc => hx (Or.inr (by omega))]
    exact h.kept x fun hR => hx (Or.inl hR)
  zero x hx := by
    simp only [Phys.kdealloc, Phys.pageDeAllocator]
    rw [Phys.memset_mem]
    split
    · rfl
    · next hc => exact h.zero x (hx.resolve_right fun hf => hc (by omega))
  tasks g hg := by
    simp only [Phys.kdealloc, Phys.pageDeAllocator]
    rw [Phys.memset_tasks_of_ne _ fun hf => hg (Or.inr hf)]
    exact h.tasks g fun hR => hg (Or.inl hR)

/-- **The state in which the address space of `task` is released**: the other tasks of its ring
are `others`, records lie in kernel pages, and translations lead to data pages. -/
structure Teardown (S : Shape) (s : Phys) (Γ : Nat → Use) (task : Nat) (others : List Nat) :
    Prop where
  typed : Typed S s Γ
  top : S.top = 511
  seg : Chain.Seg s.next (s.next task) others task
  notMem : task ∉ others
  len : others.length < walkFuel
  record : ∀ a ∈ task :: others, ∃ f, a = kernbase + f ∧ Γ f = .kernel
  root : ∀ a ∈ task :: others, S.Root (s.tasks a).regs.cr3
  leaves : ∀ a ∈ task :: others, Leaves S.top (IsData Γ) s (s.tasks a).regs.cr3
  pages : UserPages (s.tasks task).mmap

/-- The pages that `FreePageEntries` releases, of those behind the addresses `pages`. -/
def Freed (s : Phys) (task : Nat) (others : List Nat) (pages : List (Vma × Nat)) (f : Nat) :
    Prop :=
  (∃ page ∈ pages, s.MapsTo page.2 (s.tasks task).regs.cr3 f) ∧
    ∀ a ∈ others, ¬ s.MapsTo f (s.tasks a).regs.cr3 f

variable {task : Nat} {others : List Nat} {pages : List (Vma × Nat)}

theorem Teardown.freed_data (h : Teardown S s Γ task others)
    (hp : ∀ page ∈ pages, pml4Index page.2 < 511) {f : Nat} (hf : Freed s task others pages f) :
    Γ f = .data := by
  obtain ⟨⟨page, hm, hmap⟩, -⟩ := hf
  exact ((h.leaves task (by simp)).mapsTo_iff h.typed (h.top ▸ hp page hm) |>.mp hmap).1

/-- Releasing data pages leaves records and translations alone. -/
theorem Teardown.released (h : Teardown S s Γ task others) {R : Nat → Prop}
    (hR : ∀ f, R f → Γ f = .data) (hs : Released R s s') :
    (∀ a ∈ task :: others, s'.tasks a = s.tasks a) ∧
      ∀ r v, S.Root r → pml4Index v < 511 → s'.leaf v r = s.leaf v r := by
  refine ⟨fun a ha => ?_, fun r v hr hv => ?_⟩
  · obtain ⟨f, rfl, hf⟩ := h.record a ha
    exact hs.tasks f fun hc => by simp [hR f hc] at hf
  · refine h.typed.leaf_agree (fun f p hf x hx hx' => hs.kept x fun hc => ?_) hr (h.top ▸ hv)
    have hal := (h.typed.owned f (by simp [hf])).1
    rw [show x / 4096 * 4096 = f by omega] at hc
    simp [hR f hc] at hf

/-- **One round of `FreePageEntries`.** -/
theorem Teardown.freePageEntry (h : Teardown S s Γ task others) {done : List (Vma × Nat)}
    (hdone : ∀ page ∈ done, pml4Index page.2 < 511) {page : Vma × Nat}
    (hv : pml4Index page.2 < 511) (hs : Released (Freed s task others done) s s') :
    ∃ s'', s'.freePageEntry task page = some s'' ∧
      Released (Freed s task others (done ++ [page])) s s'' := by
  obtain ⟨htasks, hleaf⟩ := h.released (fun f hf => h.freed_data hdone hf) hs
  have htask := htasks task (by simp)
  have hnext : ∀ a ∈ task :: others, s'.next a = s.next a := fun a ha => by
    simp only [Phys.next, htasks a ha]
  have hr := h.root task (by simp)
  have hlook := hleaf _ page.2 hr hv
  have hfreed : ∀ f, Freed s task others (done ++ [page]) f ↔ Freed s task others done f ∨
      (s.MapsTo page.2 (s.tasks task).regs.cr3 f ∧
        ∀ a ∈ others, ¬ s.MapsTo f (s.tasks a).regs.cr3 f) := by
    intro f
    simp only [Freed, List.mem_append, List.mem_singleton]
    constructor
    · rintro ⟨⟨p, hp | rfl, hm⟩, ho⟩
      · exact Or.inl ⟨⟨p, hp, hm⟩, ho⟩
      · exact Or.inr ⟨hm, ho⟩
    · rintro (⟨⟨p, hp, hm⟩, ho⟩ | ⟨hm, ho⟩)
      · exact ⟨⟨p, Or.inl hp, hm⟩, ho⟩
      · exact ⟨⟨page, Or.inr rfl, hm⟩, ho⟩
  have hmaps : ∀ f, s'.MapsTo page.2 (s.tasks task).regs.cr3 f ↔
      s.MapsTo page.2 (s.tasks task).regs.cr3 f := fun f => Phys.mapsTo_congr hlook
  unfold Phys.freePageEntry
  rw [htask]
  dsimp only
  split
  · next hphy =>
    -- the page is there: everything hangs on the sharing test
    set f := s'.getPhysicalPageAddr page.2 (s.tasks task).regs.cr3 &&& frame with hf
    have hmap : s.MapsTo page.2 (s.tasks task).regs.cr3 f := (hmaps f).mp ⟨hphy.1, hphy.2, hf.symm⟩
    obtain ⟨hdata, -⟩ := ((h.leaves task (by simp)).mapsTo_iff h.typed (h.top ▸ hv)).mp hmap
    obtain ⟨hal, hlt, -⟩ := data_aligned h.typed hdata
    have hf511 : pml4Index f < 511 := by
      have hlt' : f / 4096 < 65536 := hlt
      rw [pml4Index_eq]
      omega
    have hseg' : Chain.Seg s'.next (s'.next task) others task := by
      rw [hnext task (by simp)]
      exact h.seg.congr fun a ha => hnext a (by simp [ha])
    rw [countSharers_eq hseg' h.notMem h.len]
    have hcount : (others.countP fun a => decide (s'.MapsTo f (s'.tasks a).regs.cr3 f)) = 0 ↔
        ∀ a ∈ others, ¬ s.MapsTo f (s.tasks a).regs.cr3 f := by
      rw [List.countP_eq_zero]
      refine forall₂_congr fun a ha => ?_
      rw [decide_eq_true_eq, htasks a (by simp [ha]),
        Phys.mapsTo_congr (hleaf _ f (h.root a (by simp [ha])) hf511)]
    have hfeq : ∀ g, s.MapsTo page.2 (s.tasks task).regs.cr3 g ↔ g = f := fun g =>
      ⟨fun hg => hg.2.2.symm.trans hmap.2.2, fun hg => hg ▸ hmap⟩
    refine ⟨_, rfl, ?_⟩
    split
    · next hc =>
      refine (hs.kdealloc hal).congr fun g => ?_
      rw [hfreed, hfeq]
      exact or_congr_right ⟨fun hg => ⟨hg, hg ▸ hcount.mp hc⟩, fun hg => hg.1⟩
    · next hc =>
      refine hs.congr fun g => ?_
      rw [hfreed, hfeq]
      refine ⟨Or.inl, fun hg => hg.resolve_right ?_⟩
      rintro ⟨rfl, hg⟩
      exact hc (hcount.mpr hg)
  · next hphy =>
    refine ⟨s', rfl, hs.congr fun f => ?_⟩
    rw [hfreed]
    refine ⟨Or.inl, fun hg => hg.resolve_right ?_⟩
    rintro ⟨hm, -⟩
    obtain ⟨h₁, h₂, -⟩ := (hmaps f).mpr hm
    exact hphy ⟨h₁, h₂⟩

/-- **`FreePageEntries`.** It always comes back when the page loops do. -/
theorem Teardown.freePageEntries (h : Teardown S s Γ task others)
    (hp : vmaPages (s.tasks task).mmap = some pages) :
    ∃ s', s.freePageEntries task = some s' ∧ Released (Freed s task others pages) s s' := by
  have hv : ∀ page ∈ pages, pml4Index page.2 < 511 := fun page hm => h.pages.page hp hm
  unfold Phys.freePageEntries
  rw [hp, Option.bind_eq_bind, Option.bind_some]
  -- the pages done so far and those still to come
  suffices ∀ (l done : List (Vma × Nat)) (t : Phys), done ++ l = pages →
      Released (Freed s task others done) s t →
      ∃ s', l.foldlM (Phys.freePageEntry task) t = some s' ∧
        Released (Freed s task others pages) s s' from
    this pages [] s rfl ((Released.refl s).congr fun f => by simp [Freed])
  intro l
  induction l with
  | nil =>
    rintro done t rfl ht
    exact ⟨t, rfl, by simpa using ht⟩
  | cons page l ih =>
    intro done t hl ht
    obtain ⟨t', hstep, ht'⟩ := h.freePageEntry (fun p hp => hv p (by simp [← hl, hp]))
      (hv page (by simp [← hl])) ht
    rw [List.foldlM_cons, hstep]
    exact ih (done ++ [page]) t' (by simpa using hl) ht'

/-! ### FreePageTables -/

/-- A level at which nothing has the present bit. -/
theorem freeTableEntries_even {inner : Phys → Nat → Phys} {n table : Nat}
    (h : ∀ i < n, entry s.mem table i % 2 = 0) : Phys.freeTableEntries inner n s table = s := by
  unfold Phys.freeTableEntries
  induction n with
  | zero => rfl
  | succ n ih =>
    rw [List.range_succ, List.foldl_append, ih fun i hi => h i (by omega)]
    simp [and_present, h n (by omega)]

/-- A level at which the levels below do nothing. -/
theorem freeTableEntries_spec {inner : Phys → Nat → Phys} {n table : Nat}
    (hinner : ∀ t : Phys, t.mem = s.mem → ∀ i < n, entry s.mem table i % 2 = 1 →
      inner t (entry s.mem table i) = t) :
    (Phys.freeTableEntries inner n s table).mem = s.mem ∧
      (Phys.freeTableEntries inner n s table).tasks = s.tasks ∧
      (Phys.freeTableEntries inner n s table).exhausted = s.exhausted ∧
      ∀ m, IsFree (Phys.freeTableEntries inner n s table).availFrames m ↔
        IsFree s.availFrames m ∨ ∃ i < n, child s.mem table i = some (m * 4096) := by
  unfold Phys.freeTableEntries
  -- induction on the number of entries that have been read
  induction n with
  | zero => simp
  | succ n ih =>
    obtain ⟨hmem, htasks, hx, hfree⟩ := ih fun t ht i hi => hinner t ht i (by omega)
    rw [List.range_succ, List.foldl_append, List.foldl_cons, List.foldl_nil]
    set t := (List.range n).foldl _ s with ht
    dsimp only
    rw [hmem]
    -- the last entry is one more table to release
    have hsplit : ∀ m, (∃ i < n + 1, child s.mem table i = some (m * 4096)) ↔
        (∃ i < n, child s.mem table i = some (m * 4096)) ∨
          child s.mem table n = some (m * 4096) := by
      intro m
      constructor
      · rintro ⟨i, hi, hm⟩
        rcases Nat.lt_succ_iff_lt_or_eq.mp hi with hi | rfl
        · exact Or.inl ⟨i, hi, hm⟩
        · exact Or.inr hm
      · rintro (⟨i, hi, hm⟩ | hm)
        · exact ⟨i, by omega, hm⟩
        · exact ⟨n, by omega, hm⟩
    have hchild : child s.mem table n = if entry s.mem table n &&& present ≠ 0 then
        some (entry s.mem table n &&& frame) else none := rfl
    split
    · next hp =>
      have hodd : entry s.mem table n % 2 = 1 := by
        rw [and_present] at hp
        omega
      rw [hinner t hmem n (by omega) hodd]
      refine ⟨hmem, htasks, hx, fun m => ?_⟩
      simp only [Phys.pageDeAllocator, pageDeAllocator, isFree_markasFree, hfree, hsplit]
      rw [hchild, if_pos hp, Option.some.injEq, and_frame (entry_lt _ _ _)]
      generalize entry s.mem table n / 4096 = q
      have hq : m = q * 4096 / 0x1000 ↔ q * 4096 = m * 4096 := by omega
      rw [← hq]
      exact or_comm.trans or_assoc
    · next hp =>
      refine ⟨hmem, htasks, hx, fun m => ?_⟩
      rw [hfree, hsplit, hchild, if_neg hp]
      simp

/-- **`FreePageTables`** releases the tables that the entries of the PML4 point to, and nothing
else: the words it reads behind them straddle two entries and begin with a zero byte. -/
theorem freePageTables_spec {pml4 : Nat} {roots : List Nat} (h : Typed (userShape pml4 roots) s Γ)
    (hr : r ∈ roots) (hne : r ≠ pml4) :
    (s.freePageTables r).mem = s.mem ∧ (s.freePageTables r).tasks = s.tasks ∧
      (s.freePageTables r).exhausted = s.exhausted ∧
      ∀ m, IsFree (s.freePageTables r).availFrames m ↔
        IsFree s.availFrames m ∨ ∃ i < 511, child s.mem r i = some (m * 4096) := by
  unfold Phys.freePageTables
  refine freeTableEntries_spec fun t ht i hi hodd => ?_
  refine freeTableEntries_even fun j hj => ?_
  have hroot : (userShape pml4 roots).Root r := Or.inr hr
  have hd₀ : (userShape pml4 roots).Dom r ([] ++ [i]) :=
    ⟨hroot, by simp, by simpa using by omega, by simpa [userShape] using hi⟩
  have hd₁ : (userShape pml4 roots).Dom r ([i] ++ [j]) :=
    ⟨hroot, by simp, by simpa using ⟨by omega, hj⟩, by simpa [userShape] using hi⟩
  -- the entry of the PML4 carries the flags 7
  have hgood := h.slots r r [] i (h.root hroot) hd₀
  have hflag : entry s.mem r i % 4096 = 7 :=
    (hgood.2.resolve_left hne).resolve_left fun h0 => by rw [h0] at hodd; cases hodd
  have hchild : child s.mem r i = some (entry s.mem r i / 4096 * 4096) := by
    unfold child
    rw [and_present, if_pos (by omega), and_frame (entry_lt _ _ _)]
  have hΓ : Γ (entry s.mem r i / 4096 * 4096) = .table r [i] :=
    place_eq_some.mp (h.placed.step r r [] i _ (place_eq_some.mpr (h.root hroot)) hd₀ hchild)
  -- the top byte of entry `j` of the table is zero
  have htop := toNat_top_of_read64_lt (h.slots _ r [i] j hΓ hd₁).1
  rw [ht, entry, read64_mod_two, show entry s.mem r i + 8 * j =
    entry s.mem r i / 4096 * 4096 + 8 * j + 7 by omega, htop]

/-! ### What is left -/

open Classical in
/-- The uses after the release of the tree under `r` and of the pages `R`. The tables below the
first level stay marked used, and nobody has them any more. -/
noncomputable def releasedTyping (Γ : Nat → Use) (r : Nat) (R : Nat → Prop) (f : Nat) : Use :=
  if R f then .unowned
  else
    match Γ f with
    | .table r' p =>
      if r' = r then (if p.length = 1 then .unowned else .kernel) else .table r' p
    | u => u

section ReleasedTyping

variable {R : Nat → Prop}

theorem releasedTyping_table (hR : ∀ f, R f → Γ f = .data) {f r' : Nat} {p : List Nat} :
    releasedTyping Γ r R f = .table r' p ↔ r' ≠ r ∧ Γ f = .table r' p := by
  unfold releasedTyping
  by_cases hf : R f
  · simp [hf, hR f hf]
  · rw [if_neg hf]
    cases hΓ : Γ f with
    | table r₁ p₁ =>
      dsimp only
      by_cases hr : r₁ = r
      · rw [if_pos hr]
        subst hr
        constructor
        · intro h
          split at h <;> cases h
        · rintro ⟨hne, heq⟩
          exact absurd (Use.table.inj heq).1.symm hne
      · rw [if_neg hr]
        constructor
        · intro h
          exact ⟨(Use.table.inj h).1 ▸ hr, h⟩
        · exact fun h => h.2
    | _ => simp

theorem releasedTyping_data {f : Nat} :
    releasedTyping Γ r R f = .data ↔ Γ f = .data ∧ ¬ R f := by
  unfold releasedTyping
  by_cases hf : R f
  · simp [hf]
  · rw [if_neg hf]
    cases hΓ : Γ f with
    | table r₁ p₁ =>
      dsimp only
      split
      · split <;> simp
      · simp
    | _ => simp [hf]

theorem releasedTyping_kernel (hR : ∀ f, R f → Γ f = .data) {f : Nat} (hf : Γ f = .kernel) :
    releasedTyping Γ r R f = .kernel := by
  have hn : ¬ R f := fun hc => by simp [hR f hc] at hf
  simp only [releasedTyping, if_neg hn, hf]

theorem releasedTyping_owned {f : Nat} (hf : releasedTyping Γ r R f ≠ .unowned) :
    Γ f ≠ .unowned ∧ ¬ R f ∧ ∀ i, Γ f ≠ .table r [i] := by
  unfold releasedTyping at hf
  split at hf
  · exact absurd rfl hf
  · next hn =>
    refine ⟨fun hc => ?_, hn, fun i hc => ?_⟩
    · simp [hc] at hf
    · simp [hc] at hf

end ReleasedTyping

/-- **The address space under `root` is gone**, and with it the data pages `R`. -/
structure Gone (R : Nat → Prop) (root : Nat) (s s' : Phys) : Prop where
  bits : ∀ n, IsFree s'.availFrames n ↔ IsFree s.availFrames n ∨ R (n * 4096) ∨
    ∃ i < 511, child s.mem root i = some (n * 4096)
  exhausted : s'.exhausted = s.exhausted
  kept : ∀ x, ¬ R (x / 4096 * 4096) → s'.mem x = s.mem x
  zero : ∀ x, R (x / 4096 * 4096) → s'.mem x = 0
  tasks : ∀ f, ¬ R f → s'.tasks (kernbase + f) = s.tasks (kernbase + f)

variable {pml4 : Nat} {roots roots' : List Nat}

open Classical in
/-- **Releasing the address space of a task.** -/
theorem Teardown.gone (h : Teardown (userShape pml4 roots) s Γ task others)
    (hne : (s.tasks task).regs.cr3 ≠ pml4) (hp : vmaPages (s.tasks task).mmap = some pages) :
    ∃ s', s.freePageEntries task = some s' ∧ s'.tasks task = s.tasks task ∧
      Gone (Freed s task others pages) (s.tasks task).regs.cr3 s
        (s'.freePageTables (s'.tasks task).regs.cr3) := by
  obtain ⟨s', hs', hrel⟩ := h.freePageEntries hp
  have hR : ∀ f, Freed s task others pages f → Γ f = .data := fun f hf =>
    h.freed_data (fun page hm => h.pages.page hp hm) hf
  have htask : s'.tasks task = s.tasks task := (h.released hR hrel).1 task (by simp)
  refine ⟨s', hs', htask, ?_⟩
  rw [htask]
  set root := (s.tasks task).regs.cr3 with hroot
  have hr : root ∈ roots := (h.root task (by simp)).resolve_left hne
  -- the tables are as they were when `FreePageTables` looks at them
  have hmemT : ∀ f r p, Γ f = .table r p → ∀ x, f ≤ x → x < f + 4096 → s'.mem x = s.mem x := by
    intro f r p hf x hx hx'
    refine hrel.kept x fun hc => ?_
    have hal := (h.typed.owned f (by simp [hf])).1
    rw [show x / 4096 * 4096 = f by omega] at hc
    simp [hR f hc] at hf
  have hT' : Typed (userShape pml4 roots) s'
      (fun f => if Freed s task others pages f then .unowned else Γ f) := by
    refine h.typed.of_agree hmemT (fun f r p => ?_) fun f hf => ?_
    · by_cases hc : Freed s task others pages f
      · simp [hc, hR f hc]
      · simp [hc]
    · by_cases hc : Freed s task others pages f
      · simp [hc] at hf
      · rw [if_neg hc] at hf
        obtain ⟨hal, hlt, hfree⟩ := h.typed.owned f hf
        refine ⟨hal, hlt, fun hc' => ?_⟩
        rw [hrel.bits, show f / 4096 * 4096 = f by omega] at hc'
        exact hc'.elim hfree hc
  obtain ⟨hmem, htasks, hx, hbits⟩ := freePageTables_spec hT' hr hne
  have hΓroot := h.typed.root (Or.inr hr : (userShape pml4 roots).Root root)
  refine ⟨fun n => ?_, hx.trans hrel.exhausted, fun x hx => ?_, fun x hx => ?_, fun f hf => ?_⟩
  · rw [hbits, hrel.bits, or_assoc]
    refine or_congr_right (or_congr_right (exists_congr fun i => and_congr_right fun hi => ?_))
    rw [child_congr (by omega : i < 512) (hmemT root root [] hΓroot)]
  · rw [hmem, hrel.kept x hx]
  · rw [hmem, hrel.zero x hx]
  · rw [htasks, hrel.tasks f hf]

section Gone

variable {R : Nat → Prop} {root : Nat}

/-- Tables keep their bytes. -/
theorem Gone.table (h : Gone R root s s') (hT : Typed S s Γ) (hR : ∀ f, R f → Γ f = .data)
    {f : Nat} {p : List Nat} (hf : Γ f = .table r p) {x : Nat} (hx : f ≤ x) (hx' : x < f + 4096) :
    s'.mem x = s.mem x := by
  refine h.kept x fun hc => ?_
  have hal := (hT.owned f (by simp [hf])).1
  rw [show x / 4096 * 4096 = f by omega] at hc
  simp [hR f hc] at hf

theorem Gone.leaf (h : Gone R root s s') (hT : Typed S s Γ) (hR : ∀ f, R f → Γ f = .data)
    (hr : S.Root r) {v : Nat} (hv : pml4Index v < S.top) : s'.leaf v r = s.leaf v r :=
  hT.leaf_agree (fun _ _ hf _ hx hx' => h.table hT hR hf hx hx') hr hv

/-- **The forest that is left.** -/
theorem Gone.typed (h : Gone R root s s') (hT : Typed (userShape pml4 roots) s Γ)
    (hR : ∀ f, R f → Γ f = .data) (hr : root ∈ roots) (hne : root ≠ pml4)
    (hroots : ∀ r, r ∈ roots' ↔ r ∈ roots ∧ r ≠ root) :
    Typed (userShape pml4 roots') s' (releasedTyping Γ root R) := by
  have hsub : ∀ r, (userShape pml4 roots').Root r ↔
      (userShape pml4 roots).Root r ∧ r ≠ root := by
    intro r
    simp only [userShape, hroots]
    constructor
    · rintro (rfl | ⟨hr, hn⟩)
      · exact ⟨Or.inl rfl, Ne.symm hne⟩
      · exact ⟨Or.inr hr, hn⟩
    · rintro ⟨rfl | hr, hn⟩
      · exact Or.inl rfl
      · exact Or.inr ⟨hr, hn⟩
  refine hT.restrict (fun r hr => ((hsub r).mp hr).1) rfl rfl
    (fun f r p _ hf x hx hx' => h.table hT hR hf hx hx') (fun f r p => ?_) fun f hf => ?_
  · rw [releasedTyping_table hR, hsub]
    constructor
    · rintro ⟨hn, hf⟩
      exact ⟨⟨hT.rooted f r p hf, hn⟩, hf⟩
    · rintro ⟨⟨-, hn⟩, hf⟩
      exact ⟨hn, hf⟩
  · obtain ⟨hf₀, hfR, htab⟩ := releasedTyping_owned hf
    obtain ⟨hal, hlt, hfree⟩ := hT.owned f hf₀
    refine ⟨hal, hlt, fun hc => ?_⟩
    rw [h.bits, show f / 4096 * 4096 = f by omega] at hc
    rcases hc with hc | hc | ⟨i, hi, hc⟩
    · exact hfree hc
    · exact hfR hc
    · -- a first-level table of the released tree
      have hroot : (userShape pml4 roots).Root root := Or.inr hr
      have hd : (userShape pml4 roots).Dom root ([] ++ [i]) :=
        ⟨hroot, by simp, by simpa using by omega, by simpa [userShape] using hi⟩
      exact htab i (place_eq_some.mp
        (hT.placed.step root root [] i f (place_eq_some.mpr (hT.root hroot)) hd hc))

end Gone

end Sbunix
