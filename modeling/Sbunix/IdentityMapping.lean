import Sbunix.KernelMap

/-!
# The loop of `identityMapping`

The loop compares its 64-bit cursor with the end of the map by `<=`. An end in the last page of the
address space is never passed: behind that page the cursor is 0 again. There is one value of
`PHYSEND` with that end.

* `identityLoop_last` — a loop up to the last page never ends;
* `mapPages_spec` — what a loop over `n` pages leaves in the tables, without a bound on `n`;
* `identityMapping_exact_iff` — the map is exact for every `PHYSEND` above 1 MiB but that one.
-/

namespace Sbunix

/-- The last address that is mapped, less `kernbase`. -/
def identityLimit (physend : Nat) : Nat := if physend > 0x7FFFF000 then 0x10000000 else physend

/-- The pages from `PHYSSTART` to the one of `limit`. -/
def identityPages (limit : Nat) : List Nat :=
  (List.range' 256 (limit / 0x1000 + 1 - 256)).map (· * 0x1000)

/-- **The map is exact**: `identityMapping` ends, it has called `mapPage` for the pages up to the
limit and no others, its cursor has not wrapped, and, if the frames for the tables were there, each
of these pages is mapped to its own frame and the entries of all other pages are kept. -/
def IdentityMapped (s : Phys) (physend pml4 : Nat) : Prop :=
  let pages := identityPages (identityLimit physend)
  ∃ fuel t, s.identityMapping physend pml4 fuel = some t ∧
    t = pages.foldl (fun s p => s.mapPage (kernbase + p) p pml4) s ∧
    (∀ p ∈ pages, kernbase + p + 0x1000 < 2 ^ 64) ∧
    (t.exhausted = false →
      (∀ p ∈ pages, t.leaf (kernbase + p) pml4 = some (p + 3)) ∧
      ∀ v, (∀ p ∈ pages, OtherPage (kernbase + p) v) → LeafKept (s.leaf v pml4) (t.leaf v pml4))

variable {s : Phys} {Γ : Nat → Use} {pml4 physend limit p n j : Nat}

theorem mem_identityPages :
    p ∈ identityPages limit ↔ p % 0x1000 = 0 ∧ physStart ≤ p ∧ p ≤ limit := by
  simp only [identityPages, List.mem_map, List.mem_range'_1, physStart]
  constructor
  · rintro ⟨j, hj, rfl⟩
    omega
  · rintro ⟨hp, hle, hlt⟩
    exact ⟨p / 0x1000, by omega, by omega⟩

theorem virEnd_eq (physend : Nat) : Phys.virEnd physend = kernbase + identityLimit physend := by
  unfold Phys.virEnd identityLimit kernbase
  dsimp only
  split <;> rfl

/-! ### The loop -/

/-- **A loop up to the last page never ends.** Every page of the address space is at or below it. -/
theorem identityLoop_last (pml4 fuel : Nat) : ∀ (s : Phys) (v p : Nat), v % 0x1000 = 0 →
    v < 2 ^ 64 → Phys.identityLoop pml4 0xFFFFFFFFFFFFF000 fuel s v p = none := by
  induction fuel with
  | zero =>
    intro s v p _ _
    rfl
  | succ fuel ih =>
    intro s v p hv hlt
    rw [Phys.identityLoop, if_pos (by omega)]
    apply ih
    · omega
    · exact Nat.mod_lt _ (by decide)

theorem mapPages_eq_foldl (s : Phys) (pml4 n j : Nat) : s.mapPages pml4 n j =
    ((List.range' j n).map (· * 0x1000)).foldl (fun s p => s.mapPage (kernbase + p) p pml4) s := by
  induction n generalizing s j with
  | zero => rfl
  | succ n ih =>
    rw [Phys.mapPages, ih, List.range'_succ]
    rfl

/-- **What a loop over `n` pages leaves**, if it finds frames for its tables. -/
theorem mapPages_spec (n : Nat) (h : Typed (Shape.single pml4) s Γ) (hn : j + n ≤ 0x80000)
    (hx : (s.mapPages pml4 n j).exhausted = false) :
    (∀ k, j ≤ k → k < j + n →
      (s.mapPages pml4 n j).leaf (kernbase + k * 0x1000) pml4 = some (k * 0x1000 + 3)) ∧
    ∀ v, (∀ k, j ≤ k → k < j + n → OtherPage (kernbase + k * 0x1000) v) →
      LeafKept (s.leaf v pml4) ((s.mapPages pml4 n j).leaf v pml4) := by
  induction n generalizing s Γ j with
  | zero => exact ⟨fun k hk hk' => by omega, fun v _ => Or.inl rfl⟩
  | succ n ih =>
    rw [Phys.mapPages] at hx ⊢
    have hS : (Shape.single pml4).Accepts pml4 0 := ⟨by decide, trivial, fun _ _ _ => trivial⟩
    obtain ⟨Γ', ht, hself, hother⟩ := mapWith_spec (v := kernbase + j * 0x1000) (p := j * 0x1000)
      h rfl (pml4Index_lt _) (by omega) (by omega) (mapPages_live hx) hS
    obtain ⟨hmapped, hkept⟩ := ih ht.typed (by omega) hx
    -- the pages behind page `j` are other pages
    have hahead : ∀ k, j + 1 ≤ k → k < j + 1 + n →
        OtherPage (kernbase + k * 0x1000) (kernbase + j * 0x1000) := by
      intro k hk hk'
      unfold OtherPage kernbase
      omega
    refine ⟨fun k hk hk' => ?_, fun v hv => ?_⟩
    · rcases Nat.lt_or_eq_of_le hk with hlt | rfl
      · exact hmapped k hlt (by omega)
      · exact ((hkept _ hahead).eq_some (by omega)).mpr hself
    · have hfirst := hother v (pml4Index_lt v) (hv j (Nat.le_refl j) (by omega))
      exact hfirst.trans (hkept v fun k hk hk' => hv k (by omega) (by omega))

/-- **The map is exact for an end in front of the last page.** -/
theorem identityMapped_of_lt (hlt : identityLimit physend < 0x7FFFF000)
    (htyped : s.exhausted = false → ∃ Γ, Typed (Shape.single pml4) s Γ) :
    IdentityMapped s physend pml4 := by
  obtain ⟨n, hn⟩ : ∃ n, n = identityLimit physend / 0x1000 + 1 - 256 := ⟨_, rfl⟩
  have hloop : s.identityMapping physend pml4 (n + 1) = some (s.mapPages pml4 n 256) := by
    rw [Phys.identityMapping, virEnd_eq]
    exact identityLoop_eq pml4 _ hlt n (n + 1) 256 s (Nat.lt_succ_self n) (by omega)
  have hpages : identityPages (identityLimit physend) = (List.range' 256 n).map (· * 0x1000) := by
    rw [identityPages, hn]
  refine ⟨n + 1, _, hloop, ?_, fun p hp => ?_, fun hx => ?_⟩
  · rw [mapPages_eq_foldl, hpages]
  · have := (mem_identityPages.mp hp).2.2
    unfold kernbase
    omega
  · obtain ⟨Γ, hΓ⟩ := htyped (mapPages_live hx)
    obtain ⟨hmapped, hkept⟩ := mapPages_spec n hΓ (by omega) hx
    rw [hpages]
    refine ⟨fun p hp => ?_, fun v hv => hkept v fun k hk hk' => ?_⟩
    · obtain ⟨k, hk, rfl⟩ := List.mem_map.mp hp
      obtain ⟨hk, hk'⟩ := List.mem_range'_1.mp hk
      exact hmapped k hk hk'
    · exact hv _ (List.mem_map.mpr ⟨k, List.mem_range'_1.mpr ⟨hk, hk'⟩, rfl⟩)

theorem not_identityMapped_last (s : Phys) (pml4 : Nat) :
    ¬ IdentityMapped s 0x7FFFF000 pml4 := by
  rintro ⟨fuel, t, ht, -⟩
  have hend : Phys.virEnd 0x7FFFF000 = 0xFFFFFFFFFFFFF000 := by decide
  have hnone : s.identityMapping 0x7FFFF000 pml4 fuel = none := by
    rw [Phys.identityMapping, hend]
    exact identityLoop_last pml4 fuel s _ _ (by decide) (by decide)
  rw [hnone] at ht
  cases ht

/-- **Exactly one value of `PHYSEND`** keeps `identityMapping` from being exact, from whatever
memory `mapKernelMemory` starts. -/
theorem identityMapping_exact_iff (s : Phys) (physend : Nat) :
    IdentityMapped s.linkKernelTables.2 physend s.linkKernelTables.1 ↔ physend ≠ 0x7FFFF000 := by
  constructor
  · rintro h rfl
    exact not_identityMapped_last _ _ h
  · intro hne
    apply identityMapped_of_lt
    · unfold identityLimit
      split <;> omega
    · intro hx
      obtain ⟨pdpt, pdt, pt, hlinked, -⟩ := linkKernelTables_spec hx
      exact ⟨_, hlinked.typed⟩

/-- With `PHYSEND` at `0x7FFFF000` the loop goes on for ever. -/
theorem not_identityMapping_exact : ¬ ∀ (s : Phys) (physend : Nat), 0x100000 < physend →
    physend < 2 ^ 64 → IdentityMapped s.linkKernelTables.2 physend s.linkKernelTables.1 := by
  intro h
  let s : Phys := ⟨fun _ => 0, fun _ => 0#64, false, fun _ => .zeroed⟩
  exact not_identityMapped_last _ _ (h s 0x7FFFF000 (by decide) (by decide))

end Sbunix
