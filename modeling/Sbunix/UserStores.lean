import Sbunix.KernelStores

/-!
# Loads and stores of user programs

What the MMU lets through is what the last entry allows, since all tables of a user tree are
writable and open to the user (`Inv.permits_iff`). A store of the program is let through or tried
again after the fault (`Kernel.userStore`); what it does to the page tables and to memory is said by
`Inv.userStore`.
-/

namespace Sbunix

open ByteMem Chain

namespace Kernel

/-- The byte goes to the page that is mapped. -/
def writeByte (k : Kernel) (v : Nat) (b : UInt8) : Option Kernel :=
  (k.phys.translate v k.cr3).map fun a =>
    { k with phys := { k.phys with mem := Function.update k.phys.mem a b } }

/-- A store of a user program: it is let through, at once or when it is tried again after the
fault. There is no state after it when the program has been made to exit. -/
def userStore (k : Kernel) (v : Nat) (b : UInt8) : Option Kernel :=
  (k.access v true).bind fun k' =>
    if k'.runningThread = k.runningThread ∧ k'.phys.Permits v k'.cr3 true then k'.writeByte v b
    else none

end Kernel

variable {image pml4 : Nat} {s : Phys} {Γ Γ' : Nat → Use} {L M D G : List Nat} {k k' : Kernel}
  {v e f r : Nat} {w : Bool} {b : UInt8}

/-! ### What the MMU allows -/

theorem and_flag_of_mod {x u : Nat} (hx : x % 4096 = 7) (hu : u = 2 ∨ u = 4) : x &&& u = u := by
  obtain ⟨c, hc⟩ : ∃ c, x = c * 2 ^ 12 + 7 := ⟨x / 4096, by omega⟩
  have hsplit : u = 0 * 2 ^ 12 + u := by omega
  rw [hc, hsplit, Bits.and_split (by decide) (by omega)]
  rcases hu with rfl | rfl <;> simp

/-- **The rights to write and of the user** are those of the last entry. -/
theorem Typed.rights_and (h : Typed (userShape pml4 G) s Γ) (hr : r ∈ G) (hne : r ≠ pml4)
    (hv : pml4Index v < 511) (hl : s.leaf v r = some e) {u : Nat} (hu : u = 2 ∨ u = 4) :
    s.rights v r &&& u = e &&& u := by
  have hroot : (userShape pml4 G).Root r := Or.inr hr
  have hdom := Shape.dom_path hroot (show pml4Index v < (userShape pml4 G).top from hv)
  obtain ⟨pt, hpt, rfl⟩ := Option.map_eq_some_iff.mp hl
  unfold Phys.pageTable at hpt
  dsimp only at hpt
  split_ifs at hpt with h₁ h₂ h₃
  obtain rfl := Option.some.inj hpt
  have hchild : ∀ t i, entry s.mem t i &&& present ≠ 0 →
      child s.mem t i = some (entry s.mem t i &&& frame) := fun t i hi => by
    rw [child, if_pos hi]
  -- every table on the way is a table of the tree, so its entry has all rights
  have hgood : ∀ t p i, Γ t = .table r p → (userShape pml4 G).Dom r (p ++ [i]) →
      entry s.mem t i &&& present ≠ 0 → entry s.mem t i &&& u = u := fun t p i ht hd hi => by
    obtain ⟨-, hg⟩ := h.slots t r p i ht hd
    rcases hg with hg | hg | hg
    · exact absurd hg hne
    · rw [hg] at hi
      exact absurd rfl hi
    · exact and_flag_of_mod hg hu
  have hd₁ : (userShape pml4 G).Dom r ([] ++ [pml4Index v]) :=
    (userShape pml4 G).prefixClosed r ([] ++ [pml4Index v]) (pdptIndex v)
      ((userShape pml4 G).prefixClosed r [pml4Index v, pdptIndex v] (pdtIndex v) hdom)
  have hd₂ : (userShape pml4 G).Dom r ([pml4Index v] ++ [pdptIndex v]) :=
    (userShape pml4 G).prefixClosed r [pml4Index v, pdptIndex v] (pdtIndex v) hdom
  have ht₁ := h.walk hd₁ (f := entry s.mem r (pml4Index v) &&& frame) (by
    simp [Placement.walk, hchild _ _ h₁])
  have ht₂ := h.walk hd₂ (f := entry s.mem (entry s.mem r (pml4Index v) &&& frame) (pdptIndex v) &&&
    frame) (by simp [Placement.walk, hchild _ _ h₁, hchild _ _ h₂])
  have hu₁ := hgood _ _ _ (h.root hroot) hd₁ h₁
  have hu₂ := hgood _ _ _ ht₁ hd₂ h₂
  have hu₃ := hgood _ _ _ ht₂ hdom h₃
  simp only [Phys.rights]
  rw [Nat.and_comm _ (entry s.mem _ (ptIndex v)), Nat.and_assoc, Nat.and_assoc, hu₃, Nat.and_assoc, hu₂,
    hu₁]

/-- An entry for page `f`, writable or not. -/
def pageEntry (f : Nat) (w : Bool) : Nat := f + if w then 7 else 5

theorem pageEntry_or (f : Nat) (w : Bool) : pageEntry f w = f + 7 ∨ pageEntry f w = f + 5 := by
  cases w
  · exact Or.inr rfl
  · exact Or.inl rfl

theorem pageEntry_inj {g : Nat} {x y : Bool} (hf : f % 4096 = 0) (hg : g % 4096 = 0)
    (h : pageEntry f x = pageEntry g y) : f = g ∧ x = y := by
  cases x <;> cases y <;> simp [pageEntry] at h ⊢ <;> omega

/-- **Which accesses are let through.** -/
theorem Inv.permits_iff {x : Bool} (h : Inv image Γ L D G k) (hv : pml4Index v < 511)
    (hl : k.phys.leaf v k.running.regs.cr3 = some (pageEntry f x)) (hΓ : Γ f = .data) :
    k.phys.Permits v k.cr3 w ↔ (w = true → x = true) := by
  obtain ⟨hr, hne⟩ := h.root _ h.running_mem
  have hal := (data_aligned h.typed hΓ).1
  obtain ⟨c, hc⟩ : ∃ c, f = c * 2 ^ 12 := ⟨f / 4096, by omega⟩
  have hand : ∀ x u, x < 2 ^ 12 → u < 2 ^ 12 → (f + x) &&& u = x &&& u := fun x u hx hu => by
    rw [hc, show u = 0 * 2 ^ 12 + u by omega, Bits.and_split hx (by omega)]
    simp
  have huser := h.typed.rights_and hr hne hv hl (u := user) (Or.inr rfl)
  have hwrite := h.typed.rights_and hr hne hv hl (u := writeable) (Or.inl rfl)
  have hcr3 : k.cr3 = (k.phys.tasks k.runningThread).regs.cr3 := h.cr3
  rw [Phys.Permits, translate_of_leaf hal (h.cr3 ▸ hl) (pageEntry_or f x), hcr3, huser, hwrite]
  cases x <;> cases w <;> simp [pageEntry, hand, user, writeable]

/-! ### Who has which page -/

/-- The number of a page of the 48-bit address space. -/
def pageOf (v : Nat) : Nat := v % 2 ^ 48 / 4096

/-- Task `a` of `L` has data page `f` at page `p`, and may write to it if `x` is set. -/
def Kernel.Has (k : Kernel) (Γ : Nat → Use) (L : List Nat) (a p f : Nat) (x : Bool) : Prop :=
  a ∈ L ∧ Γ f = .data ∧ ∃ v, pml4Index v < 511 ∧ pageOf v = p ∧
    k.phys.leaf v (k.phys.tasks a).regs.cr3 = some (pageEntry f x)

theorem Kernel.Has.leaf {a : Nat} {x : Bool} (h : k.Has Γ L a (pageOf v) f x) :
    k.phys.leaf v (k.phys.tasks a).regs.cr3 = some (pageEntry f x) := by
  obtain ⟨-, -, w, -, hw, hl⟩ := h
  exact (leaf_same_page (not_not.mpr hw.symm) _).trans hl

theorem Inv.load_of_has {a : Nat} {x : Bool} (h : Inv image Γ L D G k)
    (hh : k.Has Γ L a (pageOf v) f x) :
    k.phys.load v (k.phys.tasks a).regs.cr3 = some (k.phys.mem (f + v % 4096)) :=
  load_of_leaf (data_aligned h.typed hh.2.1).1 hh.leaf (pageEntry_or f x)

/-- **A task has a page, or it has none.** -/
theorem Inv.has_cases {a : Nat} (h : Inv image Γ L D G k) (ha : a ∈ L) (hv : pml4Index v < 511) :
    (∃ f x, k.Has Γ L a (pageOf v) f x) ∨
      ((∀ f x, ¬ k.Has Γ L a (pageOf v) f x) ∧
        k.phys.load v (k.phys.tasks a).regs.cr3 = none) := by
  by_cases hex : ∃ f x, k.Has Γ L a (pageOf v) f x
  · exact Or.inl hex
  · refine Or.inr ⟨fun f x hh => hex ⟨f, x, hh⟩, ?_⟩
    cases hl : k.phys.leaf v (k.phys.tasks a).regs.cr3 with
    | none => rw [Phys.load, translate_eq, hl, Option.bind_none, Option.map_none]
    | some e =>
      rcases h.leaves a ha v e hv hl with rfl | ⟨f, hf, rfl | rfl⟩
      · rw [Phys.load, translate_eq, hl]
        rfl
      · exact absurd ⟨f, true, ha, hf, v, hv, rfl, hl⟩ hex
      · exact absurd ⟨f, false, ha, hf, v, hv, rfl, hl⟩ hex

/-- Entries point to data pages. -/
theorem Inv.data_of_leaf {a : Nat} {x : Bool} (h : Inv image Γ L D G k) (ha : a ∈ L)
    (hv : pml4Index v < 511) (hal : f % 4096 = 0)
    (hl : k.phys.leaf v (k.phys.tasks a).regs.cr3 = some (pageEntry f x)) : Γ f = .data := by
  have hent := pageEntry_or f x
  rcases h.leaves a ha v _ hv hl with h0 | ⟨g, hg, he⟩
  · omega
  · have hgal := (data_aligned h.typed hg).1
    obtain rfl : f = g := by omega
    exact hg

/-- **The same entries** are the same pages. -/
theorem Inv.has_congr {L' D' G' : List Nat} {a a' q : Nat} {x : Bool} (h : Inv image Γ L D G k)
    (h' : Inv image Γ' L' D' G' k') (ha : a ∈ L) (ha' : a' ∈ L')
    (hl : ∀ v, pml4Index v < 511 → pageOf v = q → ∀ e, e ≠ 0 →
      (k'.phys.leaf v (k'.phys.tasks a').regs.cr3 = some e ↔
        k.phys.leaf v (k.phys.tasks a).regs.cr3 = some e)) :
    k'.Has Γ' L' a' q f x ↔ k.Has Γ L a q f x := by
  have hent : pageEntry f x ≠ 0 := by
    have := pageEntry_or f x
    omega
  constructor
  · rintro ⟨-, hf, v, hv, hq, hl'⟩
    have hl₀ := (hl v hv hq _ hent).mp hl'
    exact ⟨ha, h.data_of_leaf ha hv (data_aligned h'.typed hf).1 hl₀, v, hv, hq, hl₀⟩
  · rintro ⟨-, hf, v, hv, hq, hl₀⟩
    have hl' := (hl v hv hq _ hent).mpr hl₀
    exact ⟨ha', h'.data_of_leaf ha' hv (data_aligned h.typed hf).1 hl', v, hv, hq, hl'⟩

/-! ### The fault of a store -/

/-- **The running task has page `g` at `v`, in place of `f`,** and may write to it. Nothing else has
changed. -/
structure OwnPage (Γ Γ' : Nat → Use) (L : List Nat) (v f g : Nat) (k k' : Kernel) : Prop where
  only : k' = { k with phys := k'.phys }
  tasks : ∀ a ∈ L, k'.phys.tasks a = k.phys.tasks a
  page : k'.Has Γ' L k.runningThread (pageOf v) g true
  other : ∀ a q f x, ¬ (a = k.runningThread ∧ q = pageOf v) →
    (k'.Has Γ' L a q f x ↔ k.Has Γ L a q f x)
  data : ∀ f, Γ f = .data → Γ' f = .data ∧
    ∀ x, f ≤ x → x < f + 4096 → k'.phys.mem x = k.phys.mem x
  copy : ∀ x < 4096, k'.phys.mem (g + x) = k.phys.mem (f + x)
  /-- Nobody else has `g`. -/
  alone : (g = f ∧ ∀ a ∈ L, ∀ y, k.Has Γ L a (pageOf v) f y → a = k.runningThread) ∨
    Γ g = .unowned

/-- **The last user of a page becomes its owner, any other gets a copy.** -/
theorem Inv.ownPage {x : Bool} (h : Inv image Γ (k.runningThread :: M) D G k)
    (hh : k.Has Γ (k.runningThread :: M) k.runningThread (pageOf v) f x) (hv : pml4Index v < 511)
    (hw : Written Γ M G v f k s Γ') :
    ∃ g, OwnPage Γ Γ' (k.runningThread :: M) v f g k { k with phys := s } := by
  have hf := hh.2.1
  have hI := h.written hf hw
  have hmem := h.running_mem
  have hroot : (userShape k.pml4 G).Root k.running.regs.cr3 := Or.inr (h.root _ hmem).1
  -- either the entry has become writable, or the page has been copied; the others stay
  have hB : Builds (userShape k.pml4 G) (· = k.running.regs.cr3) k.phys Γ s Γ' := by
    rcases hw with ⟨-, rfl, ht, -⟩ | ⟨-, hN, -⟩
    · exact (Builds.refl h.typed).touches ht rfl
    · exact hN.builds
  have htasks : ∀ a ∈ k.runningThread :: M, s.tasks a = k.phys.tasks a := fun a ha => by
    obtain ⟨c, rfl, hc⟩ := h.record a (List.mem_append_left D ha)
    exact hB.tasks c (by simp [hc])
  have hother : ∀ w, pml4Index w < 511 → OtherPage v w →
      LeafKept (k.phys.leaf w k.running.regs.cr3) (s.leaf w k.running.regs.cr3) := by
    rcases hw with ⟨-, -, -, -, hother⟩ | ⟨-, hN, -⟩
    · exact fun w hw hvw => Or.inl (hother w hw hvw)
    · exact hN.other
  have hdata : ∀ f, Γ f = .data → Γ' f = .data ∧
      ∀ x, f ≤ x → x < f + 4096 → s.mem x = k.phys.mem x := fun f hf =>
    ⟨hB.data f hf, hB.mem f (by simp [hf]) (by simp [hf])⟩
  have hkeep : ∀ a q f x, ¬ (a = k.runningThread ∧ q = pageOf v) →
      (({ k with phys := s } : Kernel).Has Γ' (k.runningThread :: M) a q f x ↔
        k.Has Γ (k.runningThread :: M) a q f x) := by
    intro a q f x hne
    by_cases ha : a ∈ k.runningThread :: M
    · refine h.has_congr hI ha ha fun w hw hq e he => ?_
      dsimp only
      rw [htasks a ha]
      by_cases har : a = k.runningThread
      · -- the running task, on another page
        subst har
        exact (hother w hw fun hc => hne ⟨rfl, hq.symm.trans hc⟩).eq_some he
      · rw [hB.leaf_other h.typed (Or.inr (h.root a ha).1)
          (fun hc => har (h.own a ha _ hmem hc)) hw]
    · exact iff_of_false (fun hc => ha hc.1) fun hc => ha hc.1
  have hrun : (s.tasks k.runningThread).regs.cr3 = k.running.regs.cr3 := by
    rw [htasks _ hmem]
    rfl
  -- no other task has the page: it was the only one, or the page is new
  rcases hw with ⟨hnone, rfl, -, hleaf, -⟩ | ⟨-, hN, hcopy⟩
  · refine ⟨f, rfl, htasks, ⟨hmem, hf, v, hv, rfl, ?_⟩, hkeep, hdata, fun x hx =>
      (hdata f hf).2 _ (by omega) (by omega), Or.inl ⟨rfl, fun a ha y hy => ?_⟩⟩
    · exact (congrArg (s.leaf v) hrun).trans hleaf
    · rcases List.mem_cons.mp ha with rfl | ha'
      · rfl
      · exact absurd ((Leaves.mapsTo_iff h.typed (h.leaves a ha) hv).mpr
          ⟨hf, _, hy.leaf, pageEntry_or f y⟩) (hnone a ha')
  · rename_i g
    refine ⟨g, rfl, htasks, ⟨hmem, hN.new.1, v, hv, rfl, ?_⟩, hkeep, hdata, hcopy,
      Or.inr hN.new.2⟩
    exact (congrArg (s.leaf v) hrun).trans hN.leaf

/-- The dispatch for a store to a present page. -/
theorem faultCase_store (hp : k.phys.translate v k.cr3 ≠ none)
    (hb : v &&& frame ≠ Kernel.stackBorder) :
    k.faultCase v (k.errorCode v true) = .copyOnWrite := by
  simp [Kernel.faultCase, Kernel.errorCode, hp, hb]

/-- **A store to a present page** is let through, or gets a page. -/
theorem Inv.store_access {x : Bool} (h : Inv image Γ (k.runningThread :: M) D G k)
    (hh : k.Has Γ (k.runningThread :: M) k.runningThread (pageOf v) f x) (hv : pml4Index v < 511)
    (hb : v &&& frame ≠ Kernel.stackBorder) (hs : k.access v true = some k')
    (hx : k'.phys.exhausted = false) :
    (x = true ∧ k' = k) ∨ ∃ s Γ', k' = { k with phys := s } ∧ Written Γ M G v f k s Γ' := by
  have hl : k.phys.leaf v k.running.regs.cr3 = some (pageEntry f x) := hh.leaf
  have hperm := h.permits_iff (w := true) hv hl hh.2.1
  unfold Kernel.access at hs
  split at hs
  · next hp => exact Or.inl ⟨hperm.mp hp rfl, (Option.some.inj hs).symm⟩
  · have hpres : k.phys.translate v k.cr3 ≠ none := by
      rw [h.cr3, translate_of_leaf (data_aligned h.typed hh.2.1).1 hl (pageEntry_or f x)]
      simp
    rw [Kernel.hndlrIsr14_eq, faultCase_store hpres hb] at hs
    exact Or.inr (h.copyOnWrite hv hl hh.2.1 (pageEntry_or f x) hs hx)

/-- **It returns**, if there are four frames left. -/
theorem Inv.store_access_returns {x : Bool} (h : Inv image Γ (k.runningThread :: M) D G k)
    (hh : k.Has Γ (k.runningThread :: M) k.runningThread (pageOf v) f x) (hv : pml4Index v < 511)
    (hb : v &&& frame ≠ Kernel.stackBorder) (hx : k.phys.exhausted = false)
    (hn : 4 ≤ (freeFrames k.phys.availFrames).card) :
    ∃ k', k.access v true = some k' ∧ k'.phys.exhausted = false := by
  have hl : k.phys.leaf v k.running.regs.cr3 = some (pageEntry f x) := hh.leaf
  have hmem := h.running_mem
  have hroot : (userShape k.pml4 G).Root k.running.regs.cr3 := Or.inr (h.root _ hmem).1
  obtain ⟨hal, hlt, -⟩ := data_aligned h.typed hh.2.1
  unfold Kernel.access
  split
  · exact ⟨k, rfl, hx⟩
  · have hpres : k.phys.translate v k.cr3 ≠ none := by
      rw [h.cr3, translate_of_leaf hal hl (pageEntry_or f x)]
      simp
    rw [Kernel.hndlrIsr14_eq, faultCase_store hpres hb]
    have hphy : k.phys.getPhysicalPageAddr (v &&& frame) k.running.regs.cr3 &&& frame = f := by
      rw [getPhysicalPageAddr_eq, leaf_frame_page, hl]
      exact (leaf_frame hal hlt (pageEntry_or f x)).1
    have hlen := h.length_lt
    have hcount := pageSharers_eq (v := v) (f := f) h.ring.seg.2 (List.nodup_cons.mp h.ring.nodup).1
      (by simp only [List.length_append, List.length_cons] at hlen; omega)
    dsimp only
    unfold Kernel.copyOnWrite
    simp only [hphy, hcount, Option.bind_eq_bind, Option.bind_some]
    split
    · refine ⟨_, rfl, ?_⟩
      rw [markPageAsRW_exhausted]
      exact hx
    · obtain ⟨hx₁, hn₁⟩ := kmalloc_alive_of_le (k := 3) hx hn
      obtain ⟨hx₂, -⟩ := @mapWith_alive_of_le _ user (v &&& frame) k.phys.kmalloc.1
        k.running.regs.cr3 0 hx₁ hn₁
      obtain ⟨-, -, hd, -⟩ := copyPage_spec h.typed hroot (userShape_accepts k.pml4 G _) hv hh.2.1 hx₂
      rw [h.cr3, hd, Option.map_some]
      refine ⟨_, rfl, ?_⟩
      rw [Phys.memcpy_exhausted]
      exact hx₂

/-- **The byte is written.** -/
theorem Inv.writeByte {g : Nat} {x : Bool} (h : Inv image Γ L D G k)
    (hh : k.Has Γ L k.runningThread (pageOf v) g x) :
    ∃ k', k.writeByte v b = some k' ∧ Inv image Γ L D G k' ∧
      k' = { k with phys := { k.phys with
        mem := Function.update k.phys.mem (g + v % 4096) b } } ∧
      ∀ a q f y, k'.Has Γ L a q f y ↔ k.Has Γ L a q f y := by
  have hg := hh.2.1
  have hal := (data_aligned h.typed hg).1
  have htr : k.phys.translate v k.cr3 = some (g + v % 4096) := by
    rw [h.cr3]
    exact translate_of_leaf hal hh.leaf (pageEntry_or g x)
  have hΓ : ∀ r p, Γ g ≠ .table r p := fun r p hc => by simp [hg] at hc
  set s : Phys := { k.phys with mem := Function.update k.phys.mem (g + v % 4096) b } with hs
  have hed : Edits k.phys s g := by
    refine ⟨rfl, rfl, fun y hy => ?_, fun _ _ => rfl⟩
    refine Function.update_of_ne (fun hc => hy ⟨by omega, by omega⟩) ..
  have hI := h.edits (by simp [hg]) hΓ hed rfl
  refine ⟨{ k with phys := s }, by rw [Kernel.writeByte, htr, Option.map_some], hI, rfl,
    fun a q f y => ?_⟩
  by_cases ha : a ∈ L
  · refine h.has_congr hI ha ha fun w hw _ e _ => ?_
    rw [show (({ k with phys := s } : Kernel).phys.tasks a) = k.phys.tasks a from rfl,
      hed.leaf h.typed hal hΓ (Or.inr (h.root a ha).1) hw]
  · exact iff_of_false (fun hc => ha hc.1) fun hc => ha hc.1

end Sbunix
