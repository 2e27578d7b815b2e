import Sbunix.Creation
import Sbunix.ForkPages
import Sbunix.Lib.Slice

/-!
# The argument block

`exec` lays out the arguments and the environment downwards from the end of a page at `0x300000`,
through the kernel's alias of it; `_start` of the C runtime reads them upwards, from the word that
`exec` has pushed on the user stack. `argumentBlock_block` says where everything is after the
block has been written, and `Block.passed` that `_start` finds it there.
-/

namespace Sbunix

open ByteMem Kernel

variable {S : Shape} {W : Nat → Prop} {s₀ s s' : Phys} {Γ₀ Γ Γ' : Nat → Use} {r f v : Nat}
  {P V : Nat → Prop}

/-! ### The loops -/

/-- The rounds before the first pointer. -/
theorem pushEnvPointers_skip {n t z i m : Nat} (hz : i + 0x1000 * t = z) (ht : t ≤ n) :
    pushEnvPointers n s z i m = pushEnvPointers (n - t) s i i (m - 8 * t) := by
  induction t generalizing n z m with
  | zero =>
    obtain rfl : i = z := by omega
    rfl
  | succ t ih =>
    obtain ⟨n, rfl⟩ := Nat.exists_eq_succ_of_ne_zero (show n ≠ 0 by omega)
    rw [pushEnvPointers, if_neg (by omega), ih (z := z - 0x1000) (by omega) (by omega),
      show n + 1 - (t + 1) = n - t by omega, show m - 8 - 8 * t = m - 8 * (t + 1) by omega]

theorem pushEnvPointers_out {n z i m x : Nat} (hm : 8 * n ≤ m) (hx : x < m - 8 * n ∨ m ≤ x) :
    (pushEnvPointers n s z i m).1.mem x = s.mem x := by
  induction n generalizing s z i m with
  | zero => rfl
  | succ n ih =>
    rw [pushEnvPointers]
    split
    · rw [ih (by omega) (by omega)]
      exact write64_of_out (by omega)
    · exact ih (by omega) (by omega)

/-- **The pointers**, from the highest page of the environment down. -/
theorem pushEnvPointers_words {n z m : Nat} (hm : 8 * n ≤ m) (hz : z < 2 ^ 64) :
    ∀ t < n, read64 (pushEnvPointers n s z z m).1.mem (m - 8 * (t + 1)) = z - 0x1000 * t := by
  induction n generalizing s z m with
  | zero =>
    intro t ht
    omega
  | succ n ih =>
    intro t ht
    rw [pushEnvPointers, if_pos rfl]
    cases t with
    | zero =>
      have hkept : read64 (pushEnvPointers n (s.store64 (m - 8) z) (z - 0x1000) (z - 0x1000)
          (m - 8)).1.mem (m - 8) = read64 (s.store64 (m - 8) z).mem (m - 8) :=
        read64_congr fun x hx hx' => pushEnvPointers_out (by omega) (by omega)
      exact hkept.trans (read64_write64_self _ _ hz)
    | succ t =>
      have := ih (s := s.store64 (m - 8) z) (z := z - 0x1000) (m := m - 8) (by omega) (by omega) t
        (by omega)
      rw [show m - 8 * (t + 1 + 1) = m - 8 - 8 * (t + 1) by omega, this]
      omega

/-- The room that the strings `l` take, terminators included. -/
def room (l : List (List UInt8)) : Nat := (l.map fun a => a.length + 1).sum

theorem room_cons (a : List UInt8) (l : List (List UInt8)) :
    room (a :: l) = a.length + 1 + room l := by
  rw [room, List.map_cons, List.sum_cons, room]

theorem length_le_room (l : List (List UInt8)) : l.length ≤ room l := by
  induction l with
  | nil => exact Nat.zero_le _
  | cons a l ih =>
    rw [room_cons, List.length_cons]
    omega

theorem pushArgs_out {g j m x : Nat} {l : List (List UInt8)} (hm : 8 * l.length ≤ m)
    (hj : j + room l ≤ 512) (hx : x < m - 8 * l.length ∨ m ≤ x)
    (hx' : x < g + j ∨ g + j + room l ≤ x) : (pushArgs g l s j m).1.mem x = s.mem x := by
  induction l generalizing s j m with
  | nil => rfl
  | cons a l ih =>
    rw [room_cons] at hj hx'
    rw [List.length_cons] at hm hx
    have htake : a.take (511 - j) = a := List.take_of_length_le (by omega)
    simp only [pushArgs, htake]
    rw [ih (by omega) (by omega) (by omega) (by omega)]
    dsimp only
    rw [writeBytes_of_out _ (by rw [List.length_append, List.length_singleton]; omega)]
    exact write64_of_out (by omega)

/-- **The arguments**: each pointer points to its string. -/
theorem pushArgs_words {g j m : Nat} {l : List (List UInt8)} (hm : 8 * l.length ≤ m)
    (hj : j + room l ≤ 512) (hg : g + 4096 ≤ m - 8 * l.length ∨ m ≤ g) :
    ∀ t (ht : t < l.length), ∃ p, p + l[t].length + 1 ≤ 512 ∧
      read64 (pushArgs g l s j m).1.mem (m - 8 * (t + 1)) = p + 0x301000 ∧
      slice (pushArgs g l s j m).1.mem (g + p) (l[t].length + 1) = l[t] ++ [0] := by
  induction l generalizing s j m with
  | nil =>
    intro t ht
    cases ht
  | cons a l ih =>
    rw [room_cons] at hj
    rw [List.length_cons] at hm hg
    have htake : a.take (511 - j) = a := List.take_of_length_le (by omega)
    have hlen := length_le_room l
    intro t ht
    simp only [pushArgs, htake]
    cases t with
    | zero =>
      refine ⟨j, ?_, ?_, ?_⟩
      · rw [List.getElem_cons_zero]
        omega
      · -- neither the string nor the rounds that follow reach the pointer
        refine Eq.trans (read64_congr fun x hx hx' => ?_)
          (read64_write64_self s.mem (m - 8) (v := j + 0x301000) (by omega))
        rw [pushArgs_out (by omega) (by omega) (by omega) (by omega)]
        exact writeBytes_of_out _ (by rw [List.length_append, List.length_singleton]; omega)
      · rw [List.getElem_cons_zero]
        have hself :=
          slice_writeBytes_self (s.store64 (m - 8) (j + 0x301000)).mem (g + j) (a ++ [0])
        rw [List.length_append, List.length_singleton] at hself
        refine (slice_congr fun x hx hx' => ?_).trans hself
        rw [pushArgs_out (by omega) (by omega) (by omega) (by omega)]
    | succ t =>
      rw [List.length_cons] at ht
      have := ih (s := { s.store64 (m - 8) (j + 0x301000) with
        mem := writeBytes (s.store64 (m - 8) (j + 0x301000)).mem (g + j) (a ++ [0]) })
        (j := j + a.length + 1) (m := m - 8) (by omega) (by omega) (by omega) t (by omega)
      rwa [show m - 8 * (t + 1 + 1) = m - 8 - 8 * (t + 1) by omega, List.getElem_cons_succ]

/-- **The environment pages.** Each string has a page of its own. -/
theorem pushEnv_pages {envStart : Nat} {envp : List (List UInt8)}
    (h : Populates S W s₀ Γ₀ r s Γ) (hr : S.Root r) (hW : W r) (hS : S.Accepts r user)
    (htop : S.top = 511) (hal : envStart % 4096 = 0)
    (hlen : envStart + 0x1000 * envp.length < 2 ^ 39) (hshort : ∀ e ∈ envp, e.length ≤ 512)
    (hx : (pushEnv r s envStart envp).1.exhausted = false) :
    ∃ (Γ' : Nat → Use) (E : Nat → Nat), Populates S W s₀ Γ₀ r (pushEnv r s envStart envp).1 Γ' ∧
      (∀ g, Γ g ≠ .unowned → Γ' g = Γ g) ∧
      Keeps (fun g => Γ g = .data) (fun w => pml4Index w < S.top ∧
        ∀ j < envp.length, OtherPage (envStart + 0x1000 * j) w) r s
        (pushEnv r s envStart envp).1 ∧
      ∀ j (hj : j < envp.length), Γ (E j) = .unowned ∧ IsNewData Γ₀ Γ' (E j) ∧
        (pushEnv r s envStart envp).1.leaf (envStart + 0x1000 * j) r = some (E j + 7) ∧
        slice (pushEnv r s envStart envp).1.mem (E j) (envp[j].length + 1) = envp[j] ++ [0] := by
  induction envp generalizing s Γ envStart with
  | nil =>
    refine ⟨Γ, fun _ => 0, h, fun _ _ => rfl, .refl _ _ r s, fun j hj => ?_⟩
    cases hj
  | cons e rest ih =>
    simp only [pushEnv, List.length_cons] at hx hlen ⊢
    have hx₂ := pushEnv_alive hx
    have hx₁ : s.kmalloc.2.exhausted = false := by
      have := mapPageForUser_alive hx₂
      dsimp only at this
      exact this
    have he := hshort e List.mem_cons_self
    rw [List.take_of_length_le he] at hx hx₂ ⊢
    obtain ⟨ht, -, -⟩ := kmalloc_taken hx₁
    set q := s.kmalloc.1 with hq
    have hq₀ := ht.unowned h.builds.typed
    have hP₁ := h.taken hr ht (u := .data) (by simp) (by simp)
    have hf₁ : IsNewData Γ₀ (Function.update Γ q .data) q :=
      ⟨Function.update_self .., h.builds.new hq₀⟩
    have hext₁ := ht.update_ext h.builds.typed .data
    set s₁ : Phys := { s.kmalloc.2 with mem := writeBytes s.kmalloc.2.mem q (e ++ [0]) } with hs₁
    have hedit : Edits s.kmalloc.2 s₁ q := writeBytes_edits s.kmalloc.2 (le_refl q)
      (by rw [List.length_append, List.length_singleton]; omega)
    have hP₂ := hP₁.edit hr hf₁ hedit
    have hv : pml4Index envStart < S.top := by
      rw [htop, pml4Index_eq]
      omega
    obtain ⟨Γ₃, hP₃, hext₃, hself, -⟩ := hP₂.map hr hW hS hv hf₁ hx₂
    have hmap := mapPageForUser_keeps hP₂.builds.typed hr hS hv hf₁.1 hx₂
    obtain ⟨Γ', E, hP', hext', hkeep, hE⟩ := ih hP₃ (by omega) (by omega)
      (fun e' he' => hshort e' (List.mem_cons_of_mem e he')) hx
    have hΓ₃ : ∀ g, Γ g ≠ .unowned → Γ₃ g = Γ g := fun g hg => by
      rw [hext₃ g (by rwa [hext₁ g hg]), hext₁ g hg]
    have hne : ∀ g, Γ g = .data → g ≠ q := by
      intro g hg hgq
      rw [hgq, hq₀] at hg
      cases hg
    -- up to the page of `e`, and behind it
    have hfirst : Keeps (fun g => Γ g = .data) (fun w => pml4Index w < S.top ∧
        OtherPage envStart w) r s (s₁.mapPageForUser envStart q r) := by
      have k₁ := ht.keeps h.builds.typed hr
      have k₂ := hedit.keeps hP₁.builds.typed hr (by simp) (by simp)
      refine (k₁.mono (fun g hg => ?_) fun w hw => hw.1).trans
        ((k₂.mono (fun g hg => ?_) fun w hw => hw.1).trans
          (hmap.mono (fun g hg => ?_) fun w hw => hw))
      · simp [hg]
      · rw [hext₁ g (by simp [hg])]
        exact ⟨by simp [hg], hne g hg⟩
      · rw [hext₁ g (by simp [hg]), hg]
    refine ⟨Γ', fun j => if j = 0 then q else E (j - 1), hP', fun g hg => ?_, ?_, fun j hj => ?_⟩
    · rw [hext' g (by rwa [hΓ₃ g hg]), hΓ₃ g hg]
    · refine (hfirst.mono (fun g hg => hg) fun w hw => ⟨hw.1, ?_⟩).trans
        (hkeep.mono (fun g hg => ?_) fun w hw => ⟨hw.1, fun j hj => ?_⟩)
      · simpa using hw.2 0 (by omega)
      · rw [hΓ₃ g (by simp [hg]), hg]
      · have := hw.2 (j + 1) (by omega)
        rwa [show envStart + 0x1000 * (j + 1) = envStart + 0x1000 + 0x1000 * j by omega] at this
    · have hq₃ : Γ₃ q = .data := by rw [hext₃ q (by simp), hf₁.1]
      cases j with
      | zero =>
        dsimp only
        have hw : pml4Index envStart < S.top ∧ ∀ j < rest.length,
            OtherPage (envStart + 0x1000 + 0x1000 * j) envStart := by
          refine ⟨hv, fun j hj => ?_⟩
          unfold OtherPage
          omega
        refine ⟨hq₀, ⟨by rw [if_pos rfl, hext' q (by simp [hq₃]), hq₃], hf₁.2⟩, ?_, ?_⟩
        · rw [Nat.mul_zero, Nat.add_zero, if_pos rfl]
          exact ((hkeep.leaf envStart hw).eq_some (by omega)).mpr hself
        · rw [if_pos rfl, List.getElem_cons_zero]
          have hwrite := slice_writeBytes_self s.kmalloc.2.mem q (e ++ [0])
          rw [List.length_append, List.length_singleton] at hwrite
          refine Eq.trans (slice_congr fun x hxl hxr => ?_) hwrite
          rw [hkeep.mem q hq₃ x hxl (by omega)]
          exact hmap.mem q hf₁.1 x hxl (by omega)
      | succ j =>
        obtain ⟨h₁, h₂, h₃, h₄⟩ := hE j (by simpa using hj)
        dsimp only
        rw [if_neg (Nat.succ_ne_zero j), Nat.add_sub_cancel, List.getElem_cons_succ,
          show envStart + 0x1000 * (j + 1) = envStart + 0x1000 + 0x1000 * j by omega]
        refine ⟨?_, h₂, h₃, h₄⟩
        by_contra hc
        rw [hΓ₃ _ hc] at h₁
        exact hc h₁

/-! ### The layout -/

/-- **Where everything is.** The page `f` at `0x300000` has, from its end downwards, the pointers
to the environment, the pointers to the arguments and their number; the page `g` at `0x301000` has
the arguments, and the page `E j` the `j`-th string of the environment. -/
structure Block (args envp : List (List UInt8)) (s : Phys) (r f g : Nat) (E : Nat → Nat) :
    Prop where
  block : s.leaf 0x300000 r = some (f + 7)
  strings : s.leaf 0x301000 r = some (g + 7)
  env : ∀ j (hj : j < envp.length), s.leaf (0x302000 + 0x1000 * j) r = some (E j + 7) ∧
    slice s.mem (E j) (envp[j].length + 1) = envp[j] ++ [0]
  envPointer : ∀ j < envp.length, read64 s.mem (f + 0xEF0 + 8 * j) = 0x302000 + 0x1000 * j
  null : read64 s.mem (f + 0xEE8) = 0
  arg : ∀ t (ht : t < args.length), ∃ p, p + args[t].length + 1 ≤ 512 ∧
    read64 s.mem (f + 0xEE8 - 8 * args.length + 8 * t) = p + 0x301000 ∧
    slice s.mem (g + p) (args[t].length + 1) = args[t] ++ [0]
  argc : read64 s.mem (f + 0xEE0 - 8 * args.length) = args.length

/-- The pages of the block. -/
def BlockPage (n : Nat) (f g : Nat) (E : Nat → Nat) (q : Nat) : Prop :=
  q = f ∨ q = g ∨ ∃ j < n, q = E j

/-- **The block stays** where its pages stay. -/
theorem Block.keeps {args envp : List (List UInt8)} {g : Nat} {E : Nat → Nat}
    (h : Block args envp s r f g E) (hk : Keeps P V r s s')
    (hP : ∀ q, BlockPage envp.length f g E q → P q) (hV : ∀ v, v < 0x323000 → V v)
    (hargs : args.length ≤ 400) (henvp : envp.length ≤ 32) (hlen : ∀ e ∈ envp, e.length ≤ 512) :
    Block args envp s' r f g E := by
  have hleaf : ∀ v e, v < 0x323000 → s.leaf v r = some (e + 7) → s'.leaf v r = some (e + 7) :=
    fun v e hv he => ((hk.leaf v (hV v hv)).eq_some (by omega)).mpr he
  have hblock : ∀ a, a + 8 ≤ 4096 → read64 s'.mem (f + a) = read64 s.mem (f + a) := fun a ha =>
    read64_congr fun x hx hx' => hk.mem f (hP f (Or.inl rfl)) x (by omega) (by omega)
  refine ⟨hleaf _ _ (by omega) h.block, hleaf _ _ (by omega) h.strings, fun j hj => ?_,
    fun j hj => ?_, ?_, fun t ht => ?_, ?_⟩
  · obtain ⟨h₁, h₂⟩ := h.env j hj
    have hj' := hlen envp[j] (List.getElem_mem hj)
    refine ⟨hleaf _ _ (by omega) h₁, (slice_congr fun x hx hx' => ?_).trans h₂⟩
    exact hk.mem (E j) (hP _ (Or.inr (Or.inr ⟨j, hj, rfl⟩))) x hx (by omega)
  · rw [Nat.add_assoc, hblock _ (by omega), ← Nat.add_assoc]
    exact h.envPointer j hj
  · rw [hblock _ (by omega)]
    exact h.null
  · obtain ⟨p, hp, h₁, h₂⟩ := h.arg t ht
    have hat : f + 0xEE8 - 8 * args.length + 8 * t = f + (0xEE8 - 8 * args.length + 8 * t) := by
      omega
    refine ⟨p, hp, ?_, (slice_congr fun x hx hx' => ?_).trans h₂⟩
    · rw [hat, hblock _ (by omega), ← hat]
      exact h₁
    · exact hk.mem g (hP _ (Or.inr (Or.inl rfl))) x (by omega) (by omega)
  · have hat : f + 0xEE0 - 8 * args.length = f + (0xEE0 - 8 * args.length) := by omega
    rw [hat, hblock _ (by omega), ← hat]
    exact h.argc

theorem room_reverse (l : List (List UInt8)) : room l.reverse = room l := by
  rw [room, List.map_reverse, List.sum_reverse, room]

/-- Writing the arguments leaves the pages other than `f` and `g` alone. -/
theorem pushArgs_keeps {g j m : Nat} {l : List (List UInt8)} (h : Typed S s Γ) (hr : S.Root r)
    (hf : Γ f = .data) (hg : Γ g = .data) (hlo : f + 8 * l.length ≤ m) (hhi : m ≤ f + 4096)
    (hj : j + room l ≤ 512) :
    Keeps (fun q => Γ q ≠ .unowned ∧ q ≠ f ∧ q ≠ g) (fun v => pml4Index v < S.top) r s
      (pushArgs g l s j m).1 := by
  have hmem : ∀ q, Γ q ≠ .unowned → q ≠ f → q ≠ g → ∀ x, q ≤ x → x < q + 4096 →
      (pushArgs g l s j m).1.mem x = s.mem x := fun q hq hqf hqg x hx hx' => by
    have h1 := (h.owned q hq).1
    have h2 := (data_aligned h hf).1
    have h3 := (data_aligned h hg).1
    exact pushArgs_out (by omega) hj (by omega) (by omega)
  refine ⟨fun q hq x => hmem q hq.1 hq.2.1 hq.2.2 x, fun v hv => Or.inl ?_⟩
  refine h.leaf_agree (fun q p hq x hx hx' => hmem q (by simp [hq]) ?_ ?_ x hx hx') hr hv
  · rintro rfl
    rw [hf] at hq
    cases hq
  · rintro rfl
    rw [hg] at hq
    cases hq

/-- **The environment** of a new address space: the page of the block, the pages of the strings
and an empty one. -/
theorem argumentBlock_env {envp : List (List UInt8)} (h : Populates S W s₀ Γ₀ r s Γ)
    (hr : S.Root r) (hW : W r) (hS : S.Accepts r user) (htop : S.top = 511)
    (henvp : envp.length ≤ 32) (hshort : ∀ e ∈ envp, e.length ≤ 512) {s₂ s₃ : Phys}
    (hs₂ : s₂ = (s.kmalloc.2.mapPageForUser 0x300000 s.kmalloc.1 r).store64
      (s.kmalloc.1 + 0x1000 - 8) 0)
    (hs₃ : s₃ = (pushEnv r s₂ 0x302000 envp).1.kmalloc.2.mapPageForUser
      (pushEnv r s₂ 0x302000 envp).2 (pushEnv r s₂ 0x302000 envp).1.kmalloc.1 r)
    (hx : s₃.exhausted = false) :
    (pushEnv r s₂ 0x302000 envp).2 = 0x302000 + 0x1000 * envp.length ∧
    ∃ (Γ' : Nat → Use) (E : Nat → Nat), Populates S W s₀ Γ₀ r s₃ Γ' ∧
      Γ s.kmalloc.1 = .unowned ∧ IsNewData Γ₀ Γ' s.kmalloc.1 ∧
      s₃.leaf 0x300000 r = some (s.kmalloc.1 + 7) ∧
      (∀ j (hj : j < envp.length), Γ (E j) = .unowned ∧ IsNewData Γ₀ Γ' (E j) ∧
        E j ≠ s.kmalloc.1 ∧ s₃.leaf (0x302000 + 0x1000 * j) r = some (E j + 7) ∧
        slice s₃.mem (E j) (envp[j].length + 1) = envp[j] ++ [0]) ∧
      Keeps (fun q => Γ q = .data) (fun w => pml4Index w < S.top ∧ 0x323000 ≤ w % 2 ^ 48) r s s₃ ∧
      (∀ q, Γ q ≠ .unowned → Γ' q = Γ q) := by
  have hv : ∀ v, v < 2 ^ 39 → pml4Index v < S.top := fun v hv => by
    rw [htop, pml4Index_eq]
    omega
  generalize hf : s.kmalloc.1 = f at hs₂ ⊢
  generalize hsk : s.kmalloc.2 = sk at hs₂
  generalize hs₁ : sk.mapPageForUser 0x300000 f r = s₁ at hs₂
  generalize henv : pushEnv r s₂ 0x302000 envp = env at hs₃ ⊢
  generalize hlast : env.1.kmalloc.1 = last at hs₃
  generalize hel : env.1.kmalloc.2 = el at hs₃
  -- memory has lasted all the way
  have hxl : el.exhausted = false := mapPageForUser_alive (hs₃ ▸ hx)
  have hxe : env.1.exhausted = false := kmalloc_alive (hel ▸ hxl)
  have hx₁ : s₁.exhausted = false := by
    have := pushEnv_alive (henv ▸ hxe)
    rwa [hs₂, Phys.store64_exhausted] at this
  have hxk : sk.exhausted = false := mapPageForUser_alive (hs₁ ▸ hx₁)
  -- the page of the block
  have ht : Taken s sk f := hf ▸ hsk ▸ (kmalloc_taken (hsk ▸ hxk)).1
  have hf₀ := ht.unowned h.builds.typed
  have hPk := h.taken hr ht (u := .data) (by simp) (by simp)
  have hfk : IsNewData Γ₀ (Function.update Γ f .data) f :=
    ⟨Function.update_self .., h.builds.new hf₀⟩
  have hextk := ht.update_ext h.builds.typed .data
  obtain ⟨Γ₁, hP₁, hext₁, hself₁, -⟩ := hPk.map hr hW hS (hv 0x300000 (by decide)) hfk
    (hs₁ ▸ hx₁)
  have hmap₁ := mapPageForUser_keeps hPk.builds.typed hr hS (hv 0x300000 (by decide)) hfk.1
    (hs₁ ▸ hx₁)
  rw [hs₁] at hP₁ hself₁ hmap₁
  have hf₁ : IsNewData Γ₀ Γ₁ f := hfk.ext hext₁
  have he₂ : Edits s₁ s₂ f := hs₂ ▸ store64_edits s₁ (by omega) (by omega)
  have hP₂ := hP₁.edit hr hf₁ he₂
  -- the strings
  have henv₂ : (pushEnv r s₂ 0x302000 envp).2 = 0x302000 + 0x1000 * envp.length :=
    (pushEnv_populates hP₂ hr hW hS htop (by omega) (henv ▸ hxe)).1
  obtain ⟨Γe, E, hPe, hexte, hke, hE⟩ := pushEnv_pages hP₂ hr hW hS htop (by decide) (by omega)
    hshort (henv ▸ hxe)
  rw [henv] at henv₂ hPe hke hE
  have htl : Taken env.1 el last := hlast ▸ hel ▸ (kmalloc_taken (hel ▸ hxl)).1
  have hPl := hPe.taken hr htl (u := .data) (by simp) (by simp)
  have hextl := htl.update_ext hPe.builds.typed .data
  have hfl : IsNewData Γ₀ (Function.update Γe last .data) last :=
    ⟨Function.update_self .., hPe.builds.new (htl.unowned hPe.builds.typed)⟩
  have hve : pml4Index env.2 < S.top := hv _ (by rw [henv₂]; omega)
  obtain ⟨Γ₃, hP₃, hext₃, -, -⟩ := hPl.map hr hW hS hve hfl (hs₃ ▸ hx)
  have hmap₃ := mapPageForUser_keeps hPl.builds.typed hr hS hve hfl.1 (hs₃ ▸ hx)
  rw [← hs₃] at hP₃ hmap₃
  -- typings grow
  have h01 : ∀ q, Γ q ≠ .unowned → Γ₁ q = Γ q := fun q hq => by
    rw [hext₁ q (by rwa [hextk q hq]), hextk q hq]
  have he3 : ∀ q, Γe q ≠ .unowned → Γ₃ q = Γe q := fun q hq => by
    rw [hext₃ q (by rwa [hextl q hq]), hextl q hq]
  have hfe : Γe f = .data := by rw [hexte f (by simp [hf₁.1]), hf₁.1]
  have hne : ∀ q, Γ q = .data → q ≠ f := by
    intro q hq hqf
    rw [hqf, hf₀] at hq
    cases hq
  -- what stays, from the end of the strings and from the beginning
  have hlate : Keeps (fun q => Γe q = .data) (fun w => pml4Index w < S.top ∧ OtherPage env.2 w) r
      env.1 s₃ := by
    refine ((htl.keeps hPe.builds.typed hr).mono (fun q hq => by simp [hq]) fun w hw => hw.1).trans
      (hmap₃.mono (fun q hq => ?_) fun w hw => hw)
    rw [hextl q (by simp [hq]), hq]
  have hearly : Keeps (fun q => Γ q = .data) (fun w => pml4Index w < S.top ∧ OtherPage 0x300000 w)
      r s s₂ := by
    have k₁ := ht.keeps h.builds.typed hr
    have k₂ := he₂.keeps hP₁.builds.typed hr (by simp [hf₁.1]) (by simp [hf₁.1])
    refine (k₁.mono (fun q hq => by simp [hq]) fun w hw => hw.1).trans
      ((hmap₁.mono (fun q hq => ?_) fun w hw => hw).trans
        (k₂.mono (fun q hq => ?_) fun w hw => hw.1))
    · rw [hextk q (by simp [hq]), hq]
    · rw [h01 q (by simp [hq])]
      exact ⟨by simp [hq], hne q hq⟩
  have hpage : ∀ w, 0x323000 ≤ w % 2 ^ 48 → ∀ a, a < 0x323000 → OtherPage a w := by
    intro w hw a ha
    unfold OtherPage
    omega
  refine ⟨henv₂, Γ₃, E, hP₃, hf₀, (hf₁.ext hexte).ext he3, ?_, fun j hj => ?_, ?_, fun q hq => ?_⟩
  · have h₂ : s₂.leaf 0x300000 r = some (f + 7) := by
      rw [he₂.leaf hP₁.builds.typed (data_aligned hP₁.builds.typed hf₁.1).1 (by simp [hf₁.1]) hr
        (hv 0x300000 (by decide))]
      exact hself₁
    have hother : ∀ j < envp.length, OtherPage (0x302000 + 0x1000 * j) 0x300000 := fun j hj => by
      unfold OtherPage
      omega
    have hother' : OtherPage env.2 0x300000 := by
      unfold OtherPage
      omega
    exact ((hlate.leaf 0x300000 ⟨hv _ (by decide), hother'⟩).eq_some (by omega)).mpr
      (((hke.leaf 0x300000 ⟨hv _ (by decide), hother⟩).eq_some (by omega)).mpr h₂)
  · obtain ⟨h₁, h₂, h₃, h₄⟩ := hE j hj
    have hlen := hshort envp[j] (List.getElem_mem hj)
    have hother : OtherPage env.2 (0x302000 + 0x1000 * j) := by
      unfold OtherPage
      omega
    refine ⟨?_, h₂.ext he3, ?_, ?_, ?_⟩
    · by_contra hc
      rw [h01 _ hc] at h₁
      exact hc h₁
    · intro hc
      rw [hc, hf₁.1] at h₁
      cases h₁
    · exact ((hlate.leaf _ ⟨hv _ (by omega), hother⟩).eq_some (by omega)).mpr h₃
    · refine (slice_congr fun x hxl hxr => ?_).trans h₄
      exact hlate.mem (E j) h₂.1 x hxl (by omega)
  · refine (hearly.mono (fun q hq => hq) fun w hw => ⟨hw.1, hpage w hw.2 _ (by omega)⟩).trans
      ((hke.mono (fun q hq => ?_) fun w hw => ⟨hw.1, fun j hj => hpage w hw.2 _ (by omega)⟩).trans
        (hlate.mono (fun q hq => ?_) fun w hw => ⟨hw.1, hpage w hw.2 _ (by omega)⟩))
    · rw [h01 q (by simp [hq]), hq]
    · have hq₁ : Γ₁ q = .data := by rw [h01 q (by simp [hq]), hq]
      rw [hexte q (by simp [hq₁]), hq₁]
  · have hq₁ := h01 q hq
    have hqe := (hexte q (by rwa [hq₁])).trans hq₁
    exact (he3 q (by rwa [hqe])).trans hqe

/-- **The pointers and the arguments**, in the page `f` and in a page of their own. -/
theorem argumentBlock_args {args : List (List UInt8)} {n : Nat} (h : Populates S W s₀ Γ₀ r s Γ)
    (hr : S.Root r) (hW : W r) (hS : S.Accepts r user) (htop : S.top = 511)
    (hf : IsNewData Γ₀ Γ f) (hargs : args.length ≤ 400) (hroom : room args ≤ 512) (hn : n ≤ 32)
    {s₄ s₅ s₆ : Phys} {pointers pushed : Phys × Nat}
    (hpointers : pointers = pushEnvPointers 33 s 0x322000 (0x302000 + 0x1000 * n) (f + 0x1000 - 8))
    (hs₄ : s₄ = pointers.1.store64 (pointers.2 - 8) 0)
    (hpushed : pushed = pushArgs s₄.kmalloc.1 args.reverse s₄.kmalloc.2 0 (pointers.2 - 8))
    (hs₅ : s₅ = pushed.1.mapPageForUser 0x301000 s₄.kmalloc.1 r)
    (hs₆ : s₆ = s₅.store64 (pushed.2 - 8) args.length) (hx : s₆.exhausted = false) :
    pushed.2 = f + 0xEE8 - 8 * args.length ∧
    ∃ (Γ' : Nat → Use) (g : Nat), Populates S W s₀ Γ₀ r s₆ Γ' ∧ Γ g = .unowned ∧
      IsNewData Γ₀ Γ' g ∧ (∀ q, Γ q = .data → Γ' q = .data) ∧
      s₆.leaf 0x301000 r = some (g + 7) ∧
      (∀ j < n, read64 s₆.mem (f + 0xEF0 + 8 * j) = 0x302000 + 0x1000 * j) ∧
      read64 s₆.mem (f + 0xEE8) = 0 ∧
      (∀ t (ht : t < args.length), ∃ p, p + args[t].length + 1 ≤ 512 ∧
        read64 s₆.mem (f + 0xEE8 - 8 * args.length + 8 * t) = p + 0x301000 ∧
        slice s₆.mem (g + p) (args[t].length + 1) = args[t] ++ [0]) ∧
      read64 s₆.mem (f + 0xEE0 - 8 * args.length) = args.length ∧
      Keeps (fun q => Γ q = .data ∧ q ≠ f)
        (fun w => pml4Index w < S.top ∧ OtherPage 0x301000 w) r s s₆ := by
  have hv : pml4Index 0x301000 < S.top := by
    rw [htop]
    decide
  obtain ⟨hE, hE₂⟩ := pushEnvPointers_edits (s := s) (f := f) (n := 33) (z := 0x322000)
    (i := 0x302000 + 0x1000 * n) (m := f + 0x1000 - 8) (by omega) (by omega)
  rw [← hpointers] at hE hE₂
  have hm : pointers.2 - 8 = f + 0xEE8 := by omega
  rw [hm] at hs₄ hpushed
  generalize hg : s₄.kmalloc.1 = g at hpushed hs₅
  generalize hsk : s₄.kmalloc.2 = sk at hpushed
  have hx₅ : s₅.exhausted = false := by
    rw [hs₆, Phys.store64_exhausted] at hx
    exact hx
  have hxk : sk.exhausted = false := by
    have := mapPageForUser_alive (hs₅ ▸ hx₅)
    rwa [hpushed, pushArgs_exhausted] at this
  -- the pages
  have he₄ : Edits s s₄ f := hE.trans (hs₄ ▸ store64_edits _ (by omega) (by omega))
  have hP₄ := h.edit hr hf he₄
  have ht : Taken s₄ sk g := hg ▸ hsk ▸ (kmalloc_taken (hsk ▸ hxk)).1
  have hg₀ := ht.unowned hP₄.builds.typed
  have hPk := hP₄.taken hr ht (u := .data) (by simp) (by simp)
  have hgk : IsNewData Γ₀ (Function.update Γ g .data) g :=
    ⟨Function.update_self .., h.builds.new hg₀⟩
  have hextk := ht.update_ext hP₄.builds.typed .data
  have hfk : IsNewData Γ₀ (Function.update Γ g .data) f := hf.ext hextk
  have hfg : f ≠ g := by
    intro hc
    rw [← hc, hf.1] at hg₀
    cases hg₀
  have half := (data_aligned h.builds.typed hf.1).1
  have halg := ht.aligned
  have hlen : args.reverse.length = args.length := List.length_reverse
  have hroom' : 0 + room args.reverse ≤ 512 := by
    rw [room_reverse]
    omega
  obtain ⟨hPp, hp₂⟩ := pushArgs_populates hPk hr hfk hgk (l := args.reverse) (j := 0)
    (m := f + 0xEE8) (by omega) (by omega) (by omega) (by omega)
  rw [← hpushed] at hPp hp₂
  obtain ⟨Γ', hP₅, hext₅, hself, -⟩ := hPp.map hr hW hS hv hgk (hs₅ ▸ hx₅)
  have hmap := mapPageForUser_keeps hPp.builds.typed hr hS hv hgk.1 (hs₅ ▸ hx₅)
  rw [← hs₅] at hP₅ hself hmap
  have hf₅ : IsNewData Γ₀ Γ' f := hfk.ext hext₅
  have he₆ : Edits s₅ s₆ f := hs₆ ▸ store64_edits _ (by omega) (by omega)
  have hkp := pushArgs_keeps hPk.builds.typed hr hfk.1 hgk.1 (l := args.reverse) (j := 0)
    (m := f + 0xEE8) (by omega) (by omega) hroom'
  rw [← hpushed] at hkp
  -- what the last steps leave of the page `f`
  have hlast : ∀ x, f ≤ x → x < f + 4096 →
      x < f + 0xEE0 - 8 * args.length ∨ f + 0xEE8 - 8 * args.length ≤ x →
      s₆.mem x = pushed.1.mem x := fun x hxl hxr hxo => by
    rw [hs₆, ← hmap.mem f hfk.1 x hxl hxr]
    exact write64_of_out (by omega)
  have hhead : ∀ x, f + 0xEE8 ≤ x → x < f + 4096 → s₆.mem x = s₄.mem x := fun x hxl hxr => by
    rw [hlast x (by omega) hxr (by omega), hpushed,
      pushArgs_out (by omega) hroom' (by omega) (by omega), ht.mem x (by omega)]
  have hgmem : ∀ x, g ≤ x → x < g + 4096 → s₆.mem x = pushed.1.mem x := fun x hxl hxr => by
    rw [he₆.mem x (by omega), hmap.mem g hgk.1 x hxl hxr]
  have hwords := pushArgs_words (s := sk) (g := g) (j := 0) (m := f + 0xEE8) (l := args.reverse)
    (by omega) hroom' (by omega)
  rw [← hpushed] at hwords
  refine ⟨by omega, Γ', g, hP₅.edit hr hf₅ he₆, hg₀, hgk.ext hext₅, fun q hq => ?_, ?_,
    fun j hj => ?_, ?_, fun t ht => ?_, ?_, ?_⟩
  · have hqk := hextk q (by simp [hq])
    rw [hext₅ q (by simp [hqk, hq]), hqk, hq]
  · rw [he₆.leaf hP₅.builds.typed half (by simp [hf₅.1]) hr hv]
    exact hself
  · -- the pointers start with the page behind the strings
    have hskip := pushEnvPointers_skip (s := s) (n := 33) (t := 32 - n) (z := 0x322000)
      (i := 0x302000 + 0x1000 * n) (m := f + 0x1000 - 8) (by omega) (by omega)
    have hptr := pushEnvPointers_words (s := s) (n := 33 - (32 - n)) (z := 0x302000 + 0x1000 * n)
      (m := f + 0x1000 - 8 - 8 * (32 - n)) (by omega) (by omega) (n - j) (by omega)
    rw [← hskip, ← hpointers, show f + 0x1000 - 8 - 8 * (32 - n) - 8 * (n - j + 1) =
      f + 0xEF0 + 8 * j by omega] at hptr
    have hsame : read64 s₆.mem (f + 0xEF0 + 8 * j) = read64 pointers.1.mem (f + 0xEF0 + 8 * j) :=
      read64_congr fun x hxl hxr => by
        rw [hhead x (by omega) (by omega), hs₄]
        exact write64_of_out (by omega)
    rw [hsame, hptr]
    omega
  · have hsame : read64 s₆.mem (f + 0xEE8) = read64 s₄.mem (f + 0xEE8) :=
      read64_congr fun x hxl hxr => hhead x hxl (by omega)
    rw [hsame, hs₄]
    exact read64_write64_self _ _ (by decide)
  · obtain ⟨p, hp, h₁, h₂⟩ := hwords (args.length - 1 - t) (by omega)
    rw [List.getElem_reverse] at hp h₂
    simp only [show args.length - 1 - (args.length - 1 - t) = t by omega] at hp h₂
    refine ⟨p, hp, ?_, (slice_congr fun x hxl hxr => hgmem x (by omega) (by omega)).trans h₂⟩
    rw [show f + 0xEE8 - 8 * args.length + 8 * t = f + 0xEE8 - 8 * (args.length - 1 - t + 1) by
      omega, ← h₁]
    exact read64_congr fun x hxl hxr => hlast x (by omega) (by omega) (by omega)
  · rw [show f + 0xEE0 - 8 * args.length = pushed.2 - 8 by omega, hs₆]
    exact read64_write64_self _ _ (by omega)
  · have k₄ := he₄.keeps h.builds.typed hr (by simp [hf.1]) (by simp [hf.1])
    have kt := ht.keeps hP₄.builds.typed hr
    have k₆ := he₆.keeps hP₅.builds.typed hr (by simp [hf₅.1]) (by simp [hf₅.1])
    have hq : ∀ q, Γ q = .data → Function.update Γ g .data q = .data ∧ Γ' q = .data ∧ q ≠ g :=
      fun q hq => by
        have hqk := hextk q (by simp [hq])
        refine ⟨by rw [hqk, hq], by rw [hext₅ q (by simp [hqk, hq]), hqk, hq], ?_⟩
        intro hc
        rw [hc, hg₀] at hq
        cases hq
    refine (k₄.mono (fun q hq => ?_) fun w hw => hw.1).trans ((kt.mono (fun q hq => ?_)
      fun w hw => hw.1).trans ((hkp.mono (fun q hqf => ?_) fun w hw => hw.1).trans
        ((hmap.mono (fun q hqf => (hq q hqf.1).1) fun w hw => hw).trans
          (k₆.mono (fun q hqf => ?_) fun w hw => hw.1))))
    · exact ⟨by simp [hq.1], hq.2⟩
    · simp [hq.1]
    · exact ⟨by simp [(hq q hqf.1).1], hqf.2, (hq q hqf.1).2.2⟩
    · exact ⟨by simp [(hq q hqf.1).2.1], hqf.2⟩

/-- **The argument block** of a new address space. -/
theorem argumentBlock_block {args envp : List (List UInt8)} (h : Populates S W s₀ Γ₀ r s Γ)
    (hr : S.Root r) (hW : W r) (hS : S.Accepts r user) (htop : S.top = 511)
    (hargs : args.length ≤ 400) (hroom : room args ≤ 512) (henvp : envp.length ≤ 32)
    (hshort : ∀ e ∈ envp, e.length ≤ 512)
    (hx : (argumentBlock s r args envp).1.exhausted = false) :
    ∃ (Γ' : Nat → Use) (f g : Nat) (E : Nat → Nat),
      Populates S W s₀ Γ₀ r (argumentBlock s r args envp).1 Γ' ∧
      Block args envp (argumentBlock s r args envp).1 r f g E ∧
      (argumentBlock s r args envp).2 = 288 + 8 * args.length ∧
      (∀ q, BlockPage envp.length f g E q → Γ q = .unowned ∧ Γ' q = .data) ∧
      Keeps (fun q => Γ q = .data) (fun w => pml4Index w < S.top ∧ 0x323000 ≤ w % 2 ^ 48) r s
        (argumentBlock s r args envp).1 := by
  unfold argumentBlock at hx ⊢
  dsimp only at hx ⊢
  generalize hs₂ : (s.kmalloc.2.mapPageForUser 0x300000 s.kmalloc.1 r).store64
    (s.kmalloc.1 + 0x1000 - 8) 0 = s₂ at hx ⊢
  generalize hs₃ : (pushEnv r s₂ 0x302000 envp).1.kmalloc.2.mapPageForUser
    (pushEnv r s₂ 0x302000 envp).2 (pushEnv r s₂ 0x302000 envp).1.kmalloc.1 r = s₃ at hx ⊢
  generalize hptr : pushEnvPointers 33 s₃ 0x322000 (pushEnv r s₂ 0x302000 envp).2
    (s.kmalloc.1 + 0x1000 - 8) = pointers at hx ⊢
  generalize hs₄ : pointers.1.store64 (pointers.2 - 8) 0 = s₄ at hx ⊢
  generalize hpushed : pushArgs s₄.kmalloc.1 args.reverse s₄.kmalloc.2 0 (pointers.2 - 8) = pushed
    at hx ⊢
  generalize hs₅ : pushed.1.mapPageForUser 0x301000 s₄.kmalloc.1 r = s₅ at hx ⊢
  generalize hs₆ : s₅.store64 (pushed.2 - 8) args.length = s₆ at hx ⊢
  have hx₃ : s₃.exhausted = false := by
    have h₅ : s₅.exhausted = false := by rwa [← hs₆, Phys.store64_exhausted] at hx
    have h₄ := mapPageForUser_alive (hs₅ ▸ h₅)
    rw [← hpushed, pushArgs_exhausted] at h₄
    have := kmalloc_alive h₄
    rwa [← hs₄, Phys.store64_exhausted, ← hptr, (pushEnvPointers_edits (f := s.kmalloc.1)
      (by omega) (by omega)).1.exhausted] at this
  obtain ⟨henv₂, Γ₃, E, hP₃, hf₀, hf, hblock, hE, hk₃, hd₃⟩ := argumentBlock_env h hr hW hS htop
    henvp hshort hs₂.symm hs₃.symm hx₃
  rw [henv₂] at hptr
  obtain ⟨hp₂, Γ', g, hP', hg₀, hg, hd, hstrings, henvs, hnull, harg, hargc, hk⟩ :=
    argumentBlock_args hP₃ hr hW hS htop hf hargs hroom henvp hptr.symm hs₄.symm hpushed.symm
      hs₅.symm hs₆.symm hx
  generalize s.kmalloc.1 = f at *
  have hv : ∀ v, v < 2 ^ 39 → pml4Index v < S.top := fun v hv => by
    rw [htop, pml4Index_eq]
    omega
  have hgΓ : Γ g = .unowned := by
    by_contra hc
    rw [hd₃ g hc] at hg₀
    exact hc hg₀
  have hother : ∀ w, OtherPage 0x301000 w ↔ w % 2 ^ 48 / 4096 ≠ 0x301 := fun w => Iff.rfl
  -- the page of the block and those of the strings differ from the last one
  have hkE : ∀ j (hj : j < envp.length), s₆.leaf (0x302000 + 0x1000 * j) r = some (E j + 7) ∧
      slice s₆.mem (E j) (envp[j].length + 1) = envp[j] ++ [0] := fun j hj => by
    obtain ⟨-, h₂, h₃, h₄, h₅⟩ := hE j hj
    have hlen := hshort envp[j] (List.getElem_mem hj)
    refine ⟨((hk.leaf _ ⟨hv _ (by omega), ?_⟩).eq_some (by omega)).mpr h₄,
      (slice_congr fun x hxl hxr => hk.mem (E j) ⟨h₂.1, h₃⟩ x hxl (by omega)).trans h₅⟩
    rw [hother]
    omega
  refine ⟨Γ', f, g, E, hP', ⟨?_, hstrings, hkE, fun j hj => henvs j hj, hnull, harg, hargc⟩, ?_,
    fun q hq => ?_, ?_⟩
  · refine ((hk.leaf _ ⟨hv _ (by decide), ?_⟩).eq_some (by omega)).mpr hblock
    rw [hother]
    decide
  · omega
  · rcases hq with rfl | rfl | ⟨j, hj, rfl⟩
    · exact ⟨hf₀, hd _ hf.1⟩
    · exact ⟨hgΓ, hg.1⟩
    · exact ⟨(hE j hj).1, hd _ (hE j hj).2.1.1⟩
  · refine hk₃.trans (hk.mono (fun q hq => ⟨by rw [hd₃ q (by simp [hq]), hq], ?_⟩)
      fun w hw => ⟨hw.1, ?_⟩)
    · intro hc
      rw [hc, hf₀] at hq
      cases hq
    · rw [hother]
      omega

end Sbunix
