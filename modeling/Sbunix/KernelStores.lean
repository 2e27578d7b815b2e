import Sbunix.ForkPages

/-!
# Stores of the kernel to user memory

`readFile`, `waitpid`, `setenv`, `changeDirectory` and `getDirEntries` store into the memory of
their caller, in ring 0 (`Kernel.storeBytes`). On a page that `fork` shares, such a store bypasses
copy-on-write when `CR0.WP` is clear, and never gets done when it is set: `_hndlr_isr14` takes a
fault of the kernel on a present page for an error.

## Main results

* `storeBytes_protected` — with `CR0.WP` set, no number of retries gets the store done;
* `storeBytes_spec` — with `CR0.WP` clear, the store changes the shared page itself;
* `kernel_store_respects_iff` — the store respects copy-on-write only where it changes nothing.
-/

namespace Sbunix

open ByteMem Chain

/-- A store in ring 0 that the MMU lets through; `wp` is `CR0.WP`. -/
def Phys.PermitsKernel (s : Phys) (wp : Bool) (v cr3 : Nat) : Prop :=
  s.translate v cr3 ≠ none ∧ (wp = true → s.rights v cr3 &&& writeable ≠ 0)

instance (s : Phys) (wp : Bool) (v cr3 : Nat) : Decidable (s.PermitsKernel wp v cr3) :=
  inferInstanceAs (Decidable (_ ∧ _))

namespace Kernel

/-- The error code the MMU pushes for a store of the kernel to `v`. -/
def storeErrorCode (k : Kernel) (v : Nat) : Nat :=
  (if k.phys.translate v k.cr3 = none then 0 else 1) + 2

/-- The fault of a store to `v`, up to the return to the store instruction; there is none once the
caller has been made to exit. -/
def storeFault (k : Kernel) (v : Nat) : Option Kernel :=
  if k.faultCase v (k.storeErrorCode v) = .exit ∧ k.running.pidT ≠ 1 then none
  else k.hndlrIsr14 v (k.storeErrorCode v)

/-- A store of `b` to `v` in a system call, with at most `n` attempts. -/
def storeByte (wp : Bool) : Nat → Kernel → Nat → UInt8 → Option Kernel
  | 0, _, _, _ => none
  | n + 1, k, v, b =>
    if k.phys.PermitsKernel wp v k.cr3 then
      (k.phys.translate v k.cr3).map fun a =>
        { k with phys := { k.phys with mem := Function.update k.phys.mem a b } }
    else (k.storeFault v).bind fun k => storeByte wp n k v b

/-- The stores of `bs` to `v` and the addresses behind it. -/
def storeBytes (wp : Bool) (n : Nat) : Kernel → Nat → List UInt8 → Option Kernel
  | k, _, [] => some k
  | k, v, b :: bs => (storeByte wp n k v b).bind fun k => storeBytes wp n k (v + 1) bs

/-- **The page of `v` is shared and read-only**: it is page `f`, which another task has too. -/
structure SharedReadOnly (k : Kernel) (v f : Nat) : Prop where
  user : pml4Index v < 511
  mapped : k.phys.MapsTo v k.cr3 f
  readOnly : k.phys.rights v k.cr3 &&& writeable = 0
  shared : ∃ a w, k.OnRing a ∧ a ≠ k.runningThread ∧ pml4Index w < 511 ∧
    k.phys.MapsTo w (k.phys.tasks a).regs.cr3 f

/-- **A system call that stores `bs` to `v` respects copy-on-write**: it gets done, the caller then
reads `bs`, and the other tasks read what they have read before. -/
def StoreRespects (k : Kernel) (wp : Bool) (v : Nat) (bs : List UInt8) : Prop :=
  ∃ n k', storeBytes wp n k v bs = some k' ∧
    (∀ i < bs.length, k'.phys.load (v + i) k'.cr3 = bs[i]?) ∧
    ∀ a, k.OnRing a → a ≠ k.runningThread → ∀ w, pml4Index w < 511 →
      k'.phys.load w (k'.phys.tasks a).regs.cr3 = k.phys.load w (k.phys.tasks a).regs.cr3

end Kernel

variable {S : Shape} {image : Nat} {s : Phys} {Γ : Nat → Use} {L D G : List Nat} {k k' : Kernel}
  {v e f n : Nat} {wp : Bool} {b : UInt8} {bs : List UInt8}

/-! ### With CR0.WP set -/

/-- The handler has no branch for a store of the kernel to a present page. -/
theorem faultCase_kernelStore (hp : k.phys.translate v k.cr3 ≠ none) :
    k.faultCase v (k.storeErrorCode v) = .exit := by
  simp [Kernel.faultCase, Kernel.storeErrorCode, hp]

/-- **A store to a read-only page is tried for ever**, if the caller does not exit. -/
theorem storeByte_protected (hp : k.phys.translate v k.cr3 ≠ none)
    (hro : k.phys.rights v k.cr3 &&& writeable = 0) (n : Nat) (b : UInt8) :
    Kernel.storeByte true n k v b = none := by
  induction n with
  | zero => rfl
  | succ n ih =>
    have hcase := faultCase_kernelStore hp
    have hnot : ¬ k.phys.PermitsKernel true v k.cr3 := fun hc => hc.2 rfl hro
    rw [Kernel.storeByte, if_neg hnot, Kernel.storeFault]
    by_cases hpid : k.running.pidT = 1
    · -- `exit` comes back at once, and the store is tried again
      rw [if_neg fun hc => hc.2 hpid, Kernel.hndlrIsr14_eq, hcase]
      simp only [Kernel.exit, if_pos hpid, Option.bind_some]
      exact ih
    · rw [if_pos ⟨hcase, hpid⟩, Option.bind_none]

theorem storeBytes_protected (hp : k.phys.translate v k.cr3 ≠ none)
    (hro : k.phys.rights v k.cr3 &&& writeable = 0) (hbs : bs ≠ []) (n : Nat) :
    Kernel.storeBytes true n k v bs = none := by
  cases bs with
  | nil => exact absurd rfl hbs
  | cons b bs => rw [Kernel.storeBytes, storeByte_protected hp hro, Option.bind_none]

/-! ### With CR0.WP clear -/

/-- **The bytes are in page `f`**, and nothing else has changed. -/
structure Stored (f off : Nat) (bs : List UInt8) (k k' : Kernel) : Prop where
  only : k' = { k with phys := { k.phys with mem := k'.phys.mem } }
  stored : ∀ i (hi : i < bs.length), k'.phys.mem (f + off + i) = bs[i]
  other : ∀ x, (∀ i < bs.length, x ≠ f + off + i) → k'.phys.mem x = k.phys.mem x

theorem Stored.edits {off : Nat} (h : Stored f off bs k k') (hoff : off + bs.length ≤ 4096) :
    Edits k.phys k'.phys f :=
  ⟨by rw [h.only], by rw [h.only],
    fun x hx => h.other x fun i hi hc => hx ⟨by omega, by omega⟩, fun _ _ => by rw [h.only]⟩

/-- **With CR0.WP clear a store goes to the page that is mapped**, whoever else has it. -/
theorem storeBytes_spec (hT : Typed S k.phys Γ) (hr : S.Root k.cr3) (hv : pml4Index v < S.top)
    (hΓ : Γ f = .data) (hl : k.phys.leaf v k.cr3 = some e) (he : e = f + 7 ∨ e = f + 5)
    (hpage : v % 4096 + bs.length ≤ 4096) :
    ∃ k', Kernel.storeBytes false (n + 1) k v bs = some k' ∧ Stored f (v % 4096) bs k k' := by
  induction bs generalizing k v with
  | nil => exact ⟨k, rfl, rfl, fun i hi => by simp at hi, fun _ _ => rfl⟩
  | cons b bs ih =>
    have hal := (data_aligned hT hΓ).1
    have htr := translate_of_leaf hal hl he
    rw [List.length_cons] at hpage
    set k₁ : Kernel := { k with
      phys := { k.phys with mem := Function.update k.phys.mem (f + v % 4096) b } } with hk₁
    have hstep : Kernel.storeByte false (n + 1) k v b = some k₁ := by
      rw [Kernel.storeByte, if_pos ⟨by simp [htr], fun hc => by cases hc⟩, htr, Option.map_some]
    have hmem₁ : k₁.phys.mem (f + v % 4096) = b := Function.update_self ..
    have hother₁ : ∀ x, x ≠ f + v % 4096 → k₁.phys.mem x = k.phys.mem x := fun x hx =>
      Function.update_of_ne hx ..
    rw [Kernel.storeBytes, hstep, Option.bind_some]
    cases bs with
    | nil =>
      refine ⟨k₁, rfl, rfl, fun i hi => ?_, fun x hx => hother₁ x (hx 0 (by simp))⟩
      obtain rfl : i = 0 := by
        simp only [List.length_cons, List.length_nil] at hi
        omega
      exact hmem₁
    | cons c bs =>
      rw [List.length_cons] at hpage
      -- the next byte is on the same page
      have hsame : ¬ OtherPage v (v + 1) := by
        unfold OtherPage
        omega
      have hed : Edits k.phys k₁.phys f :=
        ⟨rfl, rfl, fun x hx => hother₁ x fun hc => hx ⟨by omega, by omega⟩, fun _ _ => rfl⟩
      have hΓt : ∀ r p, Γ f ≠ .table r p := fun r p hc => by simp [hΓ] at hc
      have hv₁ : pml4Index (v + 1) < S.top := by
        rw [pml4Index_eq] at hv ⊢
        rwa [show (v + 1) / 2 ^ 39 = v / 2 ^ 39 by omega]
      have hoff : (v + 1) % 4096 = v % 4096 + 1 := by omega
      obtain ⟨k', hk', hst⟩ := ih (k := k₁) (v := v + 1) (hT.edits hed hal hΓt) hr hv₁
        (by rw [show k₁.cr3 = k.cr3 from rfl, hed.leaf hT hal hΓt hr hv₁, leaf_same_page hsame, hl])
        (by rw [hoff, List.length_cons]; omega)
      refine ⟨k', hk', ?_, fun i hi => ?_, fun x hx => ?_⟩
      · rw [hst.only]
      · cases i with
        | zero =>
          rw [hst.other _ fun j hj hc => by rw [hoff] at hc; omega]
          exact hmem₁
        | succ i =>
          have := hst.stored i (by simpa using hi)
          rw [hoff] at this
          rwa [show f + v % 4096 + (i + 1) = f + (v % 4096 + 1) + i by omega]
      · rw [hst.other x fun j hj hc => ?_, hother₁ x (hx 0 (by simp))]
        refine hx (j + 1) (by simpa using hj) ?_
        rw [hc, hoff]
        omega

/-! ### What the tasks read -/

theorem load_offset {w r i : Nat} (hal : f % 4096 = 0) (hi : w % 4096 + i < 4096)
    (hl : s.leaf w r = some e) (he : e = f + 7 ∨ e = f + 5) :
    s.load (w + i) r = some (s.mem (f + w % 4096 + i)) := by
  have hsame : ¬ OtherPage w (w + i) := by
    unfold OtherPage
    omega
  rw [load_of_leaf hal ((leaf_same_page hsame r).trans hl) he]
  congr 2
  omega

/-- The entry of a shared page. -/
theorem Inv.sharedEntry (h : Inv image Γ L D G k) (hs : k.SharedReadOnly v f) :
    (userShape k.pml4 G).Root k.cr3 ∧ Γ f = .data ∧
      ∃ e, k.phys.leaf v k.cr3 = some e ∧ (e = f + 7 ∨ e = f + 5) := by
  have hcr3 : k.cr3 = (k.phys.tasks k.runningThread).regs.cr3 := h.cr3
  have hleaves : Leaves (userShape k.pml4 G).top (IsData Γ) k.phys k.cr3 :=
    hcr3 ▸ h.leaves _ h.running_mem
  exact ⟨hcr3 ▸ Or.inr (h.root _ h.running_mem).1,
    (Leaves.mapsTo_iff h.typed hleaves hs.user).mp hs.mapped⟩

/-- The other task reads what is stored. -/
theorem Inv.same_of_storeRespects (h : Inv image Γ L D G k) (hs : k.SharedReadOnly v f)
    (hbs : bs ≠ []) (hpage : v % 4096 + bs.length ≤ 4096) (hrespects : k.StoreRespects wp v bs) :
    wp = false ∧ ∀ i < bs.length, k.phys.load (v + i) k.cr3 = bs[i]? := by
  obtain ⟨hr, hΓ, e, hl, he⟩ := h.sharedEntry hs
  have hal := (data_aligned h.typed hΓ).1
  obtain ⟨n, k', hk', -, hrest⟩ := hrespects
  cases wp with
  | true =>
    rw [storeBytes_protected (by simp [translate_of_leaf hal hl he]) hs.readOnly hbs] at hk'
    cases hk'
  | false =>
    refine ⟨rfl, fun i hi => ?_⟩
    cases n with
    | zero =>
      cases bs with
      | nil => exact absurd rfl hbs
      | cons b bs => cases hk'
    | succ n =>
      obtain ⟨k'', hk'', hst⟩ := storeBytes_spec (n := n) h.typed hr hs.user hΓ hl he hpage
      obtain rfl := Option.some.inj (hk''.symm.trans hk')
      obtain ⟨a, w, ha, hne, hw, hmw⟩ := hs.shared
      have haL := h.onRing_iff.mp ha
      obtain ⟨-, e', hl', he'⟩ := (Leaves.mapsTo_iff h.typed (h.leaves a haL) hw).mp hmw
      -- the address of the other task for the same byte
      set w₀ := w - w % 4096 + v % 4096 with hw₀
      have hsame : ¬ OtherPage w w₀ := by
        unfold OtherPage
        omega
      have hidx : ∀ j, w₀ % 4096 + j < 4096 → pml4Index (w₀ + j) < 511 := fun j hj => by
        rw [pml4Index_eq] at hw ⊢
        rwa [show (w₀ + j) / 2 ^ 39 = w / 2 ^ 39 by omega]
      have hoff : w₀ % 4096 = v % 4096 := by omega
      have hl₀ := (leaf_same_page hsame (k.phys.tasks a).regs.cr3).trans hl'
      have hl₁ := ((hst.edits hpage).leaf h.typed hal (fun r p hc => by simp [hΓ] at hc)
        (Or.inr (h.root a haL).1)
        (show pml4Index w₀ < 511 from hidx 0 (by omega))).trans hl₀
      have hread := hrest a ha hne (w₀ + i) (hidx i (by omega))
      rw [show k''.phys.tasks = k.phys.tasks by rw [hst.only],
        load_offset hal (by omega) hl₁ he', load_offset hal (by omega) hl₀ he', hoff,
        hst.stored i hi] at hread
      rw [load_offset hal (by omega) hl he, ← hread, List.getElem?_eq_getElem hi]

/-- Storing what is there changes nothing. -/
theorem Inv.storeRespects_of_same (h : Inv image Γ L D G k) (hs : k.SharedReadOnly v f)
    (hpage : v % 4096 + bs.length ≤ 4096)
    (hsame : ∀ i < bs.length, k.phys.load (v + i) k.cr3 = bs[i]?) :
    k.StoreRespects false v bs := by
  obtain ⟨hr, hΓ, e, hl, he⟩ := h.sharedEntry hs
  have hal := (data_aligned h.typed hΓ).1
  obtain ⟨k', hk', hst⟩ := storeBytes_spec (n := 0) h.typed hr hs.user hΓ hl he hpage
  have hmem : k'.phys.mem = k.phys.mem := by
    funext x
    by_cases hx : ∀ i < bs.length, x ≠ f + v % 4096 + i
    · exact hst.other x hx
    · push Not at hx
      obtain ⟨i, hi, rfl⟩ := hx
      have := hsame i hi
      rw [load_offset hal (by omega) hl he, List.getElem?_eq_getElem hi] at this
      rw [hst.stored i hi, Option.some.inj this]
  have hk : k' = k := by rw [hst.only, hmem]
  subst hk
  exact ⟨1, k', hk', hsame, fun _ _ _ _ _ => rfl⟩

/-! ### After a fork -/

/-- What the MMU allows is at most what the last entry allows. -/
theorem rights_of_leaf {r : Nat} (hl : s.leaf v r = some e) (he : e &&& writeable = 0) :
    s.rights v r &&& writeable = 0 := by
  obtain ⟨pt, hpt, rfl⟩ := Option.map_eq_some_iff.mp hl
  unfold Phys.pageTable at hpt
  dsimp only at hpt
  split_ifs at hpt
  obtain rfl := Option.some.inj hpt
  simp only [Phys.rights]
  rw [Nat.and_assoc, he, Nat.and_zero]

/-- **`fork` shares** the pages of the parent that lie in a VMA other than the stack. -/
theorem Inv.sharedReadOnly_of_fork {r : Nat} {M : List Nat} {u : UserRegs} {pid : Int}
    {pages : List (Vma × Nat)} (h : Inv image Γ (r :: M) D G k) (hs : k.fork u = some (pid, k'))
    (hx : k'.phys.exhausted = false) (hvp : vmaPages k.running.mmap = some pages)
    (hvis : Visited pages false v) (hstack : ¬ Visited pages true v) (hv : pml4Index v < 511)
    (hf : Γ f = .data) (hl : k.phys.leaf v k.running.regs.cr3 = some (f + 7)) :
    k'.SharedReadOnly v f := by
  obtain ⟨Γ', root, pages', hI, hF⟩ := h.forked hs hx
  obtain rfl : pages' = pages := Option.some.inj (hF.vmas.symm.trans hvp)
  have hc := hF.cr3
  generalize hchild : kernbase + k.phys.kmalloc.1 = c at hI hc
  obtain ⟨hal, hlt, -⟩ := data_aligned h.typed hf
  have hf' := (hF.data f hf).1
  obtain rfl := h.ring.head
  have hrun : k'.runningThread = k.runningThread := hI.ring.head
  have hcr3 : k'.cr3 = k.running.regs.cr3 := by
    rw [hI.cr3, Kernel.running, hrun]
    exact (hF.same k.runningThread (List.mem_cons_self ..)).cr3
  have hparent : k'.phys.leaf v k'.cr3 = some (f + 5) := by
    rw [hcr3, (hF.parent v hv).1 hvis, hl, Option.map_some, (and_makeRdOnly hal hlt).1]
  have hmaps : k'.phys.MapsTo v k'.cr3 f := (Leaves.mapsTo_iff hI.typed
    (hI.cr3 ▸ hI.leaves _ hI.running_mem : Leaves (userShape k'.pml4 (root :: G)).top (IsData Γ')
      k'.phys k'.cr3) hv).mpr ⟨hf', _, hparent, Or.inr rfl⟩
  have hc' : c ∈ k.runningThread :: c :: M := by simp
  refine ⟨hv, hmaps, rights_of_leaf hparent ?_, c, v, hI.onRing_iff.mpr hc', ?_, hv, ?_⟩
  · obtain ⟨q, hq⟩ : ∃ q, f = q * 2 ^ 12 := ⟨f / 4096, by omega⟩
    rw [hq, show writeable = 0 * 2 ^ 12 + 2 by decide, Bits.and_split (by decide) (by decide)]
    simp
  · intro hc'
    have := hI.ring.nodup
    simp [← hrun, hc'] at this
  · -- the child has the page of the parent
    rw [hc]
    rcases hF.space.visited v f _ hv hf (Or.inl rfl) hl ⟨false, hvis⟩ with ⟨-, hl'⟩ | ⟨hvis', -⟩
    · exact (Leaves.mapsTo_iff hI.typed (hc ▸ hI.leaves c hc') hv).mpr ⟨hf', _, hl', Or.inr rfl⟩
    · exact absurd hvis' hstack

/-- The shell forks, and has its page in common with its child. -/
theorem shell_fork_shared : ∃ Γ L D G pid k',
    (shellAt [pageVma 0x400000] 0x400000).fork entryRegs = some (pid, k') ∧
      Inv 0x1000 Γ L D G k' ∧ k'.SharedReadOnly 0x400000 0x4000 ∧
      k'.phys.load 0x400000 k'.cr3 = some 0 := by
  have hm : UserPages [pageVma 0x400000] := userPages_pageVma (by decide)
  have hvp := vmaPages_pageVma (v := 0x400000) (by decide)
  have hv : pml4Index 0x400000 < 511 := by decide
  obtain ⟨Γ, hI, hf, hl, -, hrun⟩ := shellAt_inv hm hv
  obtain ⟨pid, k', hs, hx⟩ := shell_fork hm hvp (by simp [pageVma, stackTop]) (by simp)
  have hcr3 : (shellAt [pageVma 0x400000] 0x400000).running.regs.cr3 = 0x2000 := by
    rw [hrun]
    rfl
  have hnot : ¬ Visited [(pageVma 0x400000, 0x400000)] true 0x400000 := by
    rintro ⟨q, hq, _, hst⟩
    obtain rfl := List.mem_singleton.mp hq
    simp [pageVma, stackTop] at hst
  have hsh := hI.sharedReadOnly_of_fork hs hx (by rw [hrun]; exact hvp)
    ⟨_, List.mem_singleton_self _, by simp [OtherPage], by simp [pageVma, stackTop]⟩ hnot hv hf
    (by rw [hcr3]; exact hl)
  -- the page was clear, and `fork` has not changed it
  have hclear : (shellAt [pageVma 0x400000] 0x400000).phys.mem 0x4000 = 0 :=
    (mapPageForUser_keeps (S := userShape 0x1000 [0x2000]) (v := 0x400000) (f := 0x4000)
      shell_typed (Or.inr (by simp)) (userShape_accepts _ _ _) hv rfl shellAt_alive.1).mem 0x4000
      rfl 0x4000 (by decide) (by decide)
  obtain ⟨Γ', root, pages, hI', hF⟩ := hI.forked hs hx
  obtain ⟨-, hf', e, hl', he⟩ := hI'.sharedEntry hsh
  refine ⟨Γ', _, _, _, pid, k', hs, hI', hsh, ?_⟩
  rw [load_of_leaf (by decide) hl' he]
  exact congrArg some (((hF.data 0x4000 hf).2 0x4000 (by decide) (by decide)).trans hclear)

/-! ### The property -/

/-- **The stores of a system call respect copy-on-write** on a shared page exactly if CR0.WP is
clear and the bytes are those that are there. -/
theorem kernel_store_respects_iff (h : Inv image Γ L D G k) (hs : k.SharedReadOnly v f)
    (hbs : bs ≠ []) (hpage : v % 4096 + bs.length ≤ 4096) :
    k.StoreRespects wp v bs ↔
      wp = false ∧ ∀ i < bs.length, k.phys.load (v + i) k.cr3 = bs[i]? := by
  constructor
  · exact h.same_of_storeRespects hs hbs hpage
  · rintro ⟨rfl, hsame⟩
    exact h.storeRespects_of_same hs hpage hsame

/-- A store of one byte by the shell. -/
theorem kernel_store_respects_shell : ∃ pid k',
    (shellAt [pageVma 0x400000] 0x400000).fork entryRegs = some (pid, k') ∧
      (k'.StoreRespects false 0x400000 [0x41] ↔
        false = false ∧ ∀ i < 1, k'.phys.load (0x400000 + i) k'.cr3 = [0x41][i]?) := by
  obtain ⟨Γ, L, D, G, pid, k', hs, hI, hsh, -⟩ := shell_fork_shared
  exact ⟨pid, k', hs, kernel_store_respects_iff hI hsh (by decide) (by decide)⟩

/-- **The other task is not left alone**, or the store never gets done. -/
theorem kernel_store_disrespects : ∃ pid k',
    (shellAt [pageVma 0x400000] 0x400000).fork entryRegs = some (pid, k') ∧
      k'.SharedReadOnly 0x400000 0x4000 ∧ ∀ wp, ¬ k'.StoreRespects wp 0x400000 [0x41] := by
  obtain ⟨Γ, L, D, G, pid, k', hs, hI, hsh, hload⟩ := shell_fork_shared
  refine ⟨pid, k', hs, hsh, fun wp hc => ?_⟩
  have := (hI.same_of_storeRespects hsh (by decide) (by decide) hc).2 0 (by decide)
  rw [Nat.add_zero, hload] at this
  exact absurd this (by decide)

end Sbunix
