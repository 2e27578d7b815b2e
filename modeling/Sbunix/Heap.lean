import Mathlib.Tactic.IntervalCases
import Sbunix.Lib.Runs
import Sbunix.Task

/-!
# The user heap

`malloc` and `free` keep the allocations of a program as VMAs behind those that `exec` has left.
`HeapOk` says that the live allocations keep clear of each other and of everything else on the
list. Runs of `malloc` and `free` keep it, and lose no VMA, as long as `malloc` does not reuse a gap
and stays clear of the first VMA of the list (`heap_safe`).

The search of `malloc` stops at a gap that is large enough, but takes the largest end that it has
seen so far as the address, and ends the list there: what comes behind the gap is lost
(`malloc_loses_allocation`). The first VMA takes no part in the search at all.

`free` also means to give back the page of the record that it unlinks. It subtracts `KERNBASE` from
a pointer to records, and from the pointer behind that record, so what it marks is a bit far behind
the bitmap; `freesRecord_iff` says that it is right only where there is nothing to unlink.
-/

namespace Sbunix

open Runs

/-- The loop of `malloc`, from the VMA `temp` on: the list up to the VMA where it stops, the largest
end, and `setNextFreed`. -/
def mallocScan (size : Nat) : Vma → List Vma → Nat → List Vma × Nat × Nat
  | temp, [], fin => ([temp], fin, 0)
  | temp, next :: rest, fin =>
    let fin := if next.growsDown = 0 then (if next.vEnd > fin then next.vEnd else fin) else fin
    let gap := (next.vStart + (2 ^ 64 - temp.vEnd)) % 2 ^ 64
    if temp.isNextFreed = 1 ∧ gap ≥ size then
      ([{ temp with isNextFreed := 0 }], fin, if gap ≠ size then 1 else 0)
    else
      let r := mallocScan size next rest fin
      (temp :: r.1, r.2)

/-- `malloc`, on the list of the running task; the new VMA is the page `addr`. The result is the
address of the allocation and the list. -/
def malloc (size addr : Nat) (pageNumber : Nat) : List Vma → Nat × List Vma
  | [] => (0, [{ Vma.zeroed addr with pageNumber := pageNumber, vEnd := size, mmsz := size }])
  | temp :: rest =>
    let r := mallocScan size temp rest 0
    (r.2.1, r.1 ++ [{ Vma.zeroed addr with
      pageNumber := pageNumber
      vStart := r.2.1
      vEnd := (r.2.1 + size) % 2 ^ 64
      mmsz := size
      isNextFreed := r.2.2 }])

/-- `free`: the first VMA behind the head that starts at `ptr` is taken out. -/
def free (ptr : Nat) : List Vma → List Vma
  | [] => []
  | [v] => [v]
  | v :: next :: rest =>
    if next.vStart = ptr then { v with isNextFreed := 1 } :: rest
    else v :: free ptr (next :: rest)

/-! ### Runs -/

/-- The VMAs of a task, and which of them are allocations that have not been freed. -/
structure Heap where
  mmap : List Vma
  live : List Bool

/-- `malloc(size)`, or `free` of the allocation at position `i` of the list. -/
inductive HeapCall
  | malloc (size addr pageNumber : Nat)
  | free (i : Nat)

/-- The pointer that the program has for the allocation at position `i`. -/
def Heap.ptr (s : Heap) (i : Nat) : Nat := (s.mmap.getD i (Vma.zeroed 0)).vStart

def Heap.step (s : Heap) : HeapCall → Option Heap
  | .malloc size addr pageNumber =>
    some ⟨(Sbunix.malloc size addr pageNumber s.mmap).2, s.live ++ [true]⟩
  | .free i => some ⟨Sbunix.free (s.ptr i) s.mmap, s.live.eraseIdx i⟩

/-- A VMA without the mark that `free` leaves. -/
def Vma.unmarked (v : Vma) : Vma := { v with isNextFreed := 0 }

/-- Two VMAs do not overlap, if one of them is an allocation. -/
def Apart (p q : Vma × Bool) : Prop :=
  p.2 = true ∨ q.2 = true → p.1.vEnd ≤ q.1.vStart ∨ q.1.vEnd ≤ p.1.vStart

/-- **A safe heap**: live allocations have their size, and keep clear of each other and of all other
VMAs. -/
structure HeapOk (s : Heap) : Prop where
  length : s.mmap.length = s.live.length
  apart : ((s.mmap.map Vma.unmarked).zip s.live).Pairwise Apart
  /-- The head of the list is no allocation. -/
  head : s.live.head? = some false
  size : ∀ p ∈ (s.mmap.map Vma.unmarked).zip s.live, p.2 = true →
    p.1.growsDown = 0 ∧ p.1.vEnd = p.1.vStart + p.1.mmsz

/-- **A call loses no VMA**: `malloc` adds one at the end, and `free` removes the one that it is
called for. -/
def Lossless (s : Heap) : HeapCall → Heap → Prop
  | .malloc .., s' => ∃ new, s'.mmap.map Vma.unmarked = s.mmap.map Vma.unmarked ++ [new]
  | .free i, s' => s'.mmap.map Vma.unmarked = (s.mmap.map Vma.unmarked).eraseIdx i

/-- The gap between `temp` and `next` is not reused for `size` bytes. -/
def NoReuse (size : Nat) (temp next : Vma) : Prop :=
  ¬ (temp.isNextFreed = 1 ∧ (next.vStart + (2 ^ 64 - temp.vEnd)) % 2 ^ 64 ≥ size)

instance (size : Nat) : DecidableRel (NoReuse size) := fun _ _ => inferInstanceAs (Decidable (¬ _))

/-- The largest end behind the head, where `malloc` allocates when it does not reuse a gap. -/
def heapEnd (mmap : List Vma) : Nat :=
  mmap.tail.foldl
    (fun fin v => if v.growsDown = 0 then (if v.vEnd > fin then v.vEnd else fin) else fin) 0

/-- **The call stays clear of the defects.** `malloc` does not reuse a gap, and what it allocates is
clear of the head of the list and stays below the stack; `free` gets an allocation that is the
first VMA at its address. -/
def HeapSafe (s : Heap) : HeapCall → Prop
  | .malloc size _ _ => s.mmap.IsChain (NoReuse size) ∧ heapEnd s.mmap + size < 2 ^ 64 ∧
    (∀ v ∈ s.mmap.head?, v.vEnd ≤ heapEnd s.mmap ∨ heapEnd s.mmap + size ≤ v.vStart) ∧
    ∀ v ∈ s.mmap.tail, v.growsDown ≠ 0 → heapEnd s.mmap + size ≤ v.vStart
  | .free i => s.live[i]? = some true ∧
    ∀ j, 0 < j → j < i → ∀ v, s.mmap[j]? = some v → v.vStart ≠ s.ptr i

variable {s s' s'' : Heap} {c : HeapCall} {size ptr : Nat}

/-! ### malloc -/

theorem mallocScan_noReuse {temp : Vma} {rest : List Vma} {fin : Nat}
    (h : (temp :: rest).IsChain (NoReuse size)) :
    mallocScan size temp rest fin = (temp :: rest, rest.foldl (fun fin v =>
      if v.growsDown = 0 then (if v.vEnd > fin then v.vEnd else fin) else fin) fin, 0) := by
  induction rest generalizing temp fin with
  | nil => rfl
  | cons next rest ih =>
    rw [List.isChain_cons_cons] at h
    obtain ⟨hno, hrest⟩ := h
    simp only [mallocScan]
    rw [if_neg hno, ih hrest]
    rfl

/-- What lies behind the head and does not grow down ends below. -/
theorem le_foldl_end (l : List Vma) (fin : Nat) :
    fin ≤ l.foldl (fun fin v =>
      if v.growsDown = 0 then (if v.vEnd > fin then v.vEnd else fin) else fin) fin ∧
    ∀ v ∈ l, v.growsDown = 0 → v.vEnd ≤ l.foldl (fun fin v =>
      if v.growsDown = 0 then (if v.vEnd > fin then v.vEnd else fin) else fin) fin := by
  induction l generalizing fin with
  | nil => exact ⟨le_refl fin, fun v hv => by cases hv⟩
  | cons w l ih =>
    rw [List.foldl_cons]
    obtain ⟨h₁, h₂⟩ := ih (if w.growsDown = 0 then (if w.vEnd > fin then w.vEnd else fin) else fin)
    refine ⟨le_trans ?_ h₁, fun v hv hd => ?_⟩
    · split_ifs <;> omega
    · rcases List.mem_cons.mp hv with rfl | hv
      · refine le_trans ?_ h₁
        rw [if_pos hd]
        split_ifs <;> omega
      · exact h₂ v hv hd

/-- **`malloc` without reuse** adds a VMA at the largest end. -/
theorem malloc_noReuse {l : List Vma} (hne : l ≠ []) (h : l.IsChain (NoReuse size))
    (hlt : heapEnd l + size < 2 ^ 64) (addr pageNumber : Nat) :
    malloc size addr pageNumber l = (heapEnd l, l ++ [{ Vma.zeroed addr with
      pageNumber := pageNumber, vStart := heapEnd l, vEnd := heapEnd l + size, mmsz := size }]) := by
  cases l with
  | nil => exact absurd rfl hne
  | cons temp rest =>
    have hend : rest.foldl (fun fin v =>
        if v.growsDown = 0 then (if v.vEnd > fin then v.vEnd else fin) else fin) 0 =
        heapEnd (temp :: rest) := rfl
    simp only [malloc]
    rw [mallocScan_noReuse h]
    simp only [hend, Nat.mod_eq_of_lt hlt]
    rfl

/-! ### free -/

/-- **`free`** removes the first VMA behind the head that starts there, and marks the one in front of
it. -/
theorem free_eraseIdx {l : List Vma} {i : Nat} {v : Vma} (hi : 0 < i) (hv : l[i]? = some v)
    (hptr : v.vStart = ptr) (hfirst : ∀ j, 0 < j → j < i → ∀ w, l[j]? = some w → w.vStart ≠ ptr) :
    (free ptr l).map Vma.unmarked = (l.map Vma.unmarked).eraseIdx i := by
  induction l generalizing i with
  | nil => cases hv
  | cons temp rest ih =>
    obtain ⟨i, rfl⟩ := Nat.exists_eq_succ_of_ne_zero (Nat.pos_iff_ne_zero.mp hi)
    rw [List.getElem?_cons_succ] at hv
    cases rest with
    | nil => cases hv
    | cons next rest =>
      cases i with
      | zero =>
        rw [List.getElem?_cons_zero, Option.some.injEq] at hv
        rw [free, if_pos (by rw [hv, hptr])]
        rfl
      | succ i =>
        -- `vmaTemp` moves on, and the index is one less
        have hne := hfirst 1 (by omega) (by omega) next rfl
        rw [free, if_neg hne, List.map_cons, ih (Nat.succ_pos i) hv fun j hj hji w hw =>
          hfirst (j + 1) (by omega) (by omega) w (by rwa [List.getElem?_cons_succ])]
        rfl

/-! ### The invariant -/

theorem zip_eraseIdx {α β : Type} (l : List α) (m : List β) (i : Nat) :
    (l.eraseIdx i).zip (m.eraseIdx i) = (l.zip m).eraseIdx i := by
  induction l generalizing m i with
  | nil => simp
  | cons a l ih =>
    cases m with
    | nil => simp
    | cons b m =>
      cases i with
      | zero => rfl
      | succ i => simp only [List.eraseIdx_cons_succ, List.zip_cons_cons, ih]

/-- **One call** keeps the heap safe and loses nothing. -/
theorem HeapOk.step (h : HeapOk s) (hok : HeapSafe s c) (hs : s.step c = some s') :
    HeapOk s' ∧ Lossless s c s' := by
  cases c with
  | malloc size addr pageNumber =>
    obtain ⟨hno, hlt, hhead, hgrow⟩ := hok
    have hne : s.mmap ≠ [] := by
      rintro hnil
      have := h.length
      rw [hnil] at this
      have hhead := h.head
      rw [List.eq_nil_of_length_eq_zero this.symm] at hhead
      cases hhead
    obtain rfl := Option.some.inj hs
    rw [malloc_noReuse hne hno hlt]
    set new : Vma := { Vma.zeroed addr with
      pageNumber := pageNumber, vStart := heapEnd s.mmap, vEnd := heapEnd s.mmap + size
      mmsz := size } with hnew
    have hlen : (s.mmap.map Vma.unmarked).length = s.live.length := by
      rw [List.length_map, h.length]
    have hzip : ((s.mmap ++ [new]).map Vma.unmarked).zip (s.live ++ [true]) =
        (s.mmap.map Vma.unmarked).zip s.live ++ [(new.unmarked, true)] := by
      rw [List.map_append, List.zip_append hlen]
      rfl
    -- the new VMA is clear of every other one
    have hapart : ∀ p ∈ (s.mmap.map Vma.unmarked).zip s.live, Apart p (new.unmarked, true) := by
      intro p hp _
      obtain ⟨v, hv, hvp⟩ := List.mem_map.mp (List.of_mem_zip hp).1
      rw [← hvp]
      change v.vEnd ≤ heapEnd s.mmap ∨ heapEnd s.mmap + size ≤ v.vStart
      obtain ⟨temp, rest, hl⟩ := List.exists_cons_of_ne_nil hne
      rw [hl] at hv hhead hgrow
      rcases List.mem_cons.mp hv with rfl | hv
      · rw [← hl] at hhead
        exact hhead v (by rw [hl]; rfl)
      · by_cases hd : v.growsDown = 0
        · left
          rw [hl]
          exact (le_foldl_end rest 0).2 v hv hd
        · right
          rw [hl]
          exact hgrow v hv hd
    refine ⟨⟨by simp [h.length], ?_, ?_, ?_⟩, new.unmarked, by rw [List.map_append]; rfl⟩
    · rw [hzip, List.pairwise_append]
      exact ⟨h.apart, List.pairwise_singleton _ _, fun p hp q hq => by
        rw [List.mem_singleton.mp hq]
        exact hapart p hp⟩
    · have hhd := h.head
      cases hlive : s.live with
      | nil =>
        rw [hlive] at hhd
        cases hhd
      | cons b bs =>
        rw [hlive] at hhd
        exact hhd
    · intro p hp hpl
      rw [hzip] at hp
      rcases List.mem_append.mp hp with hp | hp
      · exact h.size p hp hpl
      · rw [List.mem_singleton.mp hp]
        exact ⟨rfl, rfl⟩
  | free i =>
    obtain ⟨hlive, hfirst⟩ := hok
    obtain rfl := Option.some.inj hs
    have hi : i < s.live.length := by
      by_contra hc
      rw [List.getElem?_eq_none (by omega)] at hlive
      cases hlive
    have hpos : 0 < i := by
      rcases Nat.eq_zero_or_pos i with rfl | hi
      · have := h.head
        rw [List.head?_eq_getElem?, hlive] at this
        cases this
      · exact hi
    obtain ⟨v, hv⟩ : ∃ v, s.mmap[i]? = some v :=
      ⟨_, List.getElem?_eq_getElem (by rw [h.length]; exact hi)⟩
    have hptr : v.vStart = s.ptr i := by
      rw [Heap.ptr, List.getD_eq_getElem?_getD, hv, Option.getD_some]
    have hfree := free_eraseIdx hpos hv hptr hfirst
    have hlen : (free (s.ptr i) s.mmap).length = (s.live.eraseIdx i).length := by
      have := congrArg List.length hfree
      rwa [List.length_map, List.length_eraseIdx, List.length_map, h.length,
        ← List.length_eraseIdx] at this
    refine ⟨⟨hlen, ?_, ?_, ?_⟩, hfree⟩
    · rw [hfree, zip_eraseIdx]
      exact h.apart.sublist (List.eraseIdx_sublist _ i)
    · obtain ⟨i, rfl⟩ := Nat.exists_eq_succ_of_ne_zero (Nat.pos_iff_ne_zero.mp hpos)
      cases hl : s.live with
      | nil =>
        rw [hl] at hi
        cases hi
      | cons b bs =>
        have := h.head
        rw [hl] at this
        exact this
    · intro p hp hpl
      rw [hfree, zip_eraseIdx] at hp
      exact h.size p ((List.eraseIdx_sublist _ i).subset hp) hpl

/-- **The heap is safe in every run** of `malloc` and `free` whose calls stay clear of the defects,
from any list without allocations on it; and no call loses a VMA. -/
theorem heap_safe {mmap : List Vma} (hne : mmap ≠ []) {cs : List HeapCall}
    (hr : Run Heap.step HeapSafe ⟨mmap, mmap.map fun _ => false⟩ cs s) :
    HeapOk s ∧ ∀ c s', HeapSafe s c → s.step c = some s' → Lossless s c s' := by
  have hstart : HeapOk ⟨mmap, mmap.map fun _ => false⟩ := by
    have hnone : ∀ p ∈ (mmap.map Vma.unmarked).zip (mmap.map fun _ => false), p.2 = false :=
      fun p hp => by
        obtain ⟨v, -, hv⟩ := List.mem_map.mp (List.of_mem_zip hp).2
        exact hv.symm
    refine ⟨by simp, ?_, ?_, fun p hp hc => ?_⟩
    · refine List.Pairwise.imp_of_mem (R := fun _ _ => True) (fun {p q} hp hq _ hc => ?_)
        (List.pairwise_of_forall fun _ _ => trivial)
      rw [hnone p hp, hnone q hq] at hc
      simp at hc
    · obtain ⟨v, rest, rfl⟩ := List.exists_cons_of_ne_nil hne
      rfl
    · rw [hnone p hp] at hc
      cases hc
  have hok : HeapOk s := hr.invariant hstart fun s c s' h hok hs => (h.step hok hs).1
  exact ⟨hok, fun c s' hc hs => (hok.step hc hs).2⟩

/-! ### Two runs -/

/-- The list of a program with one page at `0x400000`, as `exec` leaves it. -/
def execMmap : List Vma :=
  [{ Vma.zeroed 1 with vStart := 0x300000, vEnd := 0x321000, mmsz := 0x21000 },
    { Vma.zeroed 2 with vStart := stackTop - 0x1000, vEnd := stackTop, mmsz := 0x1000, growsDown := 1 },
    { Vma.zeroed 3 with vStart := 0x400000, vEnd := 0x401000, mmsz := 0x1000 }]

/-- Two allocations, of which the second one is freed. -/
theorem heap_safe_free : ∃ s, Run Heap.step HeapSafe ⟨execMmap, [false, false, false]⟩
    [.malloc 0x1000 4 0, .malloc 0x1000 5 0, .free 4] s ∧ HeapOk s := by
  obtain ⟨s, hrun⟩ : ∃ s, Run Heap.step HeapSafe ⟨execMmap, execMmap.map fun _ => false⟩
      [.malloc 0x1000 4 0, .malloc 0x1000 5 0, .free 4] s := by
    refine ⟨_, .cons ?_ rfl (.cons ?_ rfl (.cons ?_ rfl (.nil _)))⟩
    · simp only [HeapSafe]
      decide
    · simp only [HeapSafe]
      decide
    · refine ⟨by decide, fun j hj hj' v hv => ?_⟩
      interval_cases j <;> (obtain rfl := Option.some.inj hv; decide)
  exact ⟨s, hrun, (heap_safe (by decide) hrun).1⟩

/-- **An allocation is lost.** Two allocations of one page; the first one is freed, and `malloc`
finds the gap. -/
theorem malloc_loses_allocation : ∃ s s', Run Heap.step (fun _ _ => True)
      ⟨execMmap, [false, false, false]⟩ [.malloc 0x1000 4 0, .malloc 0x1000 5 0, .free 3] s ∧
    s.step (.malloc 0x1000 6 0) = some s' ∧ ¬ Lossless s (.malloc 0x1000 6 0) s' := by
  refine ⟨_, _, .cons trivial rfl (.cons trivial rfl (.cons trivial rfl (.nil _))), rfl, ?_⟩
  rintro ⟨new, hnew⟩
  have hlen := congrArg List.length hnew
  simp only [List.length_append, List.length_map, List.length_singleton] at hlen
  exact absurd hlen (by decide)

/-! ### The page of the record -/

/-- `sizeof(VMA)`: eleven words. -/
def vmaSize : Nat := 88

/-- The address that `free` gives to `pageDeAllocator`, from the pointer `next` that it has just
stored: `vmaTemp->next - get_kernbase()` counts in records. -/
def freedAddr (next : Nat) : Nat :=
  (next + (2 ^ 64 - vmaSize * kernbase % 2 ^ 64)) % 2 ^ 64 &&& frame

/-- `free` with what it does to `availFrames`. Without a first VMA it reads through `NULL`. -/
def freeVma (ptr : Nat) (availFrames : Bitmap) : List Vma → Option (List Vma × Bitmap)
  | [] => none
  | [v] => some ([v], availFrames)
  | v :: next :: rest =>
    if next.vStart = ptr then
      some ({ v with isNextFreed := 1 } :: rest,
        pageDeAllocator availFrames (freedAddr ((rest.head?.map Vma.addr).getD 0)))
    else (freeVma ptr availFrames (next :: rest)).map fun r => (v :: r.1, r.2)

/-- A record lies in a page of its own that is in use. -/
def Vma.InPage (availFrames : Bitmap) (v : Vma) : Prop :=
  ∃ f, v.addr = kernbase + f ∧ f % 4096 = 0 ∧ f / 4096 < maxFrames ∧
    ¬ IsFree availFrames (f / 4096)

/-- **What `free` is for**: the first VMA behind the head that starts at `ptr` leaves the list and
the page of its record becomes free; without one, nothing happens. -/
def FreesRecord (ptr : Nat) (availFrames : Bitmap) (mmap : List Vma) : Prop :=
  ∃ mmap' availFrames', freeVma ptr availFrames mmap = some (mmap', availFrames') ∧
    ((∀ v ∈ mmap.tail, v.vStart ≠ ptr) → mmap' = mmap ∧ availFrames' = availFrames) ∧
    ∀ i v, 0 < i → mmap[i]? = some v → v.vStart = ptr →
      (∀ j, 0 < j → j < i → ∀ w, mmap[j]? = some w → w.vStart ≠ ptr) →
      mmap'.map Vma.unmarked = (mmap.map Vma.unmarked).eraseIdx i ∧
        availFrames' = markasFree availFrames (physOf v.addr / 0x1000)

/-- The frame that is marked free instead has no bit in the array. -/
theorem freedAddr_behind {next : Nat}
    (h : next = 0 ∨ ∃ f, next = kernbase + f ∧ f / 4096 < maxFrames) :
    maxFrames ≤ freedAddr next / 0x1000 := by
  unfold freedAddr
  rw [and_frame (Nat.mod_lt _ (by decide))]
  rcases h with rfl | ⟨f, rfl, hf⟩
  · decide
  · simp only [maxFrames, maxBitmapRows, vmaSize, kernbase] at hf ⊢
    omega

/-- The list is that of `free`. -/
theorem freeVma_list {ptr : Nat} {a a' : Bitmap} {l l' : List Vma}
    (h : freeVma ptr a l = some (l', a')) : l' = free ptr l := by
  induction l generalizing l' with
  | nil => cases h
  | cons v rest ih =>
    cases rest with
    | nil =>
      obtain ⟨rfl, -⟩ := Prod.mk.inj (Option.some.inj h)
      rfl
    | cons next rest =>
      unfold freeVma at h
      unfold free
      split at h
      · next hptr =>
        rw [if_pos hptr]
        exact (Prod.mk.inj (Option.some.inj h)).1.symm
      · next hptr =>
        rw [if_neg hptr]
        obtain ⟨r, hr, heq⟩ := Option.map_eq_some_iff.mp h
        obtain ⟨rfl, rfl⟩ := Prod.mk.inj heq
        rw [ih hr]

/-- Nothing starts at `ptr`. -/
theorem freeVma_of_absent {ptr : Nat} {a : Bitmap} {l : List Vma} (hne : l ≠ [])
    (h : ∀ v ∈ l.tail, v.vStart ≠ ptr) : freeVma ptr a l = some (l, a) := by
  induction l with
  | nil => exact absurd rfl hne
  | cons v rest ih =>
    cases rest with
    | nil => rfl
    | cons next rest =>
      unfold freeVma
      rw [if_neg (h next (by simp)), ih (by simp) fun w hw => h w (by simp [List.mem_of_mem_tail hw])]
      rfl

/-- Something does, and the bitmap changes in one place. -/
theorem freeVma_of_present {ptr : Nat} {a : Bitmap} {l : List Vma} {v : Vma} (hv : v ∈ l.tail)
    (hptr : v.vStart = ptr) : ∃ l' next, freeVma ptr a l = some (l', pageDeAllocator a
      (freedAddr next)) ∧ (next = 0 ∨ ∃ w ∈ l, next = w.addr) := by
  induction l with
  | nil => cases hv
  | cons head rest ih =>
    cases rest with
    | nil => cases hv
    | cons next rest =>
      unfold freeVma
      split
      · refine ⟨_, _, rfl, ?_⟩
        cases rest with
        | nil => exact Or.inl rfl
        | cons w rest => exact Or.inr ⟨w, by simp, rfl⟩
      · next hne =>
        rcases List.mem_cons.mp hv with rfl | hv
        · exact absurd hptr hne
        · obtain ⟨l', n, hl', hn⟩ := ih hv
          rw [hl']
          refine ⟨head :: l', n, rfl, hn.imp_right ?_⟩
          rintro ⟨w, hw, rfl⟩
          exact ⟨w, List.mem_cons_of_mem _ hw, rfl⟩

/-- The first of them. -/
theorem exists_first_start {l : List Vma} {ptr : Nat} (h : ∃ v ∈ l.tail, v.vStart = ptr) :
    ∃ i v, 0 < i ∧ l[i]? = some v ∧ v.vStart = ptr ∧
      ∀ j, 0 < j → j < i → ∀ w, l[j]? = some w → w.vStart ≠ ptr := by
  classical
  have hex : ∃ i, 0 < i ∧ ∃ v, l[i]? = some v ∧ v.vStart = ptr := by
    obtain ⟨v, hv, hptr⟩ := h
    obtain ⟨i, hi⟩ := List.mem_iff_getElem?.mp hv
    rw [List.getElem?_tail] at hi
    exact ⟨i + 1, Nat.succ_pos i, v, hi, hptr⟩
  obtain ⟨hpos, v, hv, hptr⟩ := Nat.find_spec hex
  exact ⟨Nat.find hex, v, hpos, hv, hptr, fun j hj hji w hw hwptr =>
    Nat.find_min hex hji ⟨hj, w, hw, hwptr⟩⟩

/-- The page of an unlinked record is never given back. -/
theorem not_freesRecord {ptr : Nat} {a : Bitmap} {l : List Vma} (hrec : ∀ v ∈ l, v.InPage a)
    (h : ∃ v ∈ l.tail, v.vStart = ptr) : ¬ FreesRecord ptr a l := by
  rintro ⟨l', a', hfree, -, hsome⟩
  obtain ⟨i, v, hpos, hv, hptr, hfirst⟩ := exists_first_start h
  obtain ⟨-, ha'⟩ := hsome i v hpos hv hptr hfirst
  obtain ⟨f, haddr, hal, hlt, hused⟩ := hrec v (List.mem_of_getElem? hv)
  obtain ⟨w, hw, hwptr⟩ := h
  obtain ⟨l'', next, heq, hnext⟩ := freeVma_of_present (a := a) hw hwptr
  have hbehind : maxFrames ≤ freedAddr next / 0x1000 := by
    refine freedAddr_behind (hnext.imp_right ?_)
    rintro ⟨u, hu, rfl⟩
    obtain ⟨g, hg, -, hglt, -⟩ := hrec u hu
    exact ⟨g, hg, hglt⟩
  -- the bit of the record's page after the call, from both sides
  have hphys : physOf v.addr / 0x1000 = f / 4096 := by
    rw [haddr]
    simp only [physOf, kernbase, maxFrames, maxBitmapRows] at hlt ⊢
    omega
  have hset : IsFree a' (f / 4096) := by
    rw [ha', hphys, isFree_markasFree]
    exact Or.inl rfl
  obtain ⟨-, rfl⟩ := Prod.mk.inj (Option.some.inj (hfree.symm.trans heq))
  rw [pageDeAllocator, isFree_markasFree] at hset
  rcases hset with hset | hset
  · omega
  · exact hused hset

/-- **`free` is right exactly when it has nothing to unlink.** -/
theorem freesRecord_iff {ptr : Nat} {a : Bitmap} {l : List Vma} (hrec : ∀ v ∈ l, v.InPage a) :
    FreesRecord ptr a l ↔ l ≠ [] ∧ ∀ v ∈ l.tail, v.vStart ≠ ptr := by
  constructor
  · intro h
    refine ⟨?_, fun v hv hptr => not_freesRecord hrec ⟨v, hv, hptr⟩ h⟩
    rintro rfl
    obtain ⟨l', a', hfree, -⟩ := h
    cases hfree
  · rintro ⟨hne, habsent⟩
    refine ⟨l, a, freeVma_of_absent hne habsent, fun _ => ⟨rfl, rfl⟩, ?_⟩
    intro i v hpos hv hptr
    obtain ⟨i, rfl⟩ := Nat.exists_eq_succ_of_ne_zero (Nat.pos_iff_ne_zero.mp hpos)
    rw [← List.getElem?_tail] at hv
    exact absurd hptr (habsent v (List.mem_of_getElem? hv))

/-- A program with one page, and with an allocation of one page behind it; the records lie in the
pages from `0x10000` on. -/
def allocatedMmap : List Vma :=
  [{ Vma.zeroed (kernbase + 0x10000) with vStart := 0x300000, vEnd := 0x321000, mmsz := 0x21000 },
    { Vma.zeroed (kernbase + 0x11000) with
      vStart := stackTop - 0x1000, vEnd := stackTop, mmsz := 0x1000, growsDown := 1 },
    { Vma.zeroed (kernbase + 0x12000) with vStart := 0x400000, vEnd := 0x401000, mmsz := 0x1000 },
    { Vma.zeroed (kernbase + 0x13000) with vStart := 0x401000, vEnd := 0x402000, mmsz := 0x1000 }]

theorem allocatedMmap_inPage : ∀ v ∈ allocatedMmap, v.InPage fun _ => 0#64 := by
  have hused : ∀ n, ¬ IsFree (fun _ => 0#64) n := fun n => by simp [IsFree]
  intro v hv
  simp only [allocatedMmap, List.mem_cons, List.not_mem_nil, or_false] at hv
  rcases hv with rfl | rfl | rfl | rfl
  · exact ⟨0x10000, rfl, by decide, by decide, hused _⟩
  · exact ⟨0x11000, rfl, by decide, by decide, hused _⟩
  · exact ⟨0x12000, rfl, by decide, by decide, hused _⟩
  · exact ⟨0x13000, rfl, by decide, by decide, hused _⟩

/-- `free` of an address that no allocation has. -/
theorem freesRecord_absent : FreesRecord 0x500000 (fun _ => 0#64) allocatedMmap :=
  (freesRecord_iff allocatedMmap_inPage).mpr (by decide)

/-- `free` of the allocation at `0x401000`. -/
theorem not_freesRecord_allocation : ¬ FreesRecord 0x401000 (fun _ => 0#64) allocatedMmap :=
  not_freesRecord allocatedMmap_inPage (by decide)

end Sbunix
