import Mathlib.Data.List.Find
import Sbunix.Task
import Sbunix.Tarfs

/-!
# Descriptor tables

A task has a table of 20 pointers to pages of five descriptors each, which `sys/tarfs.c` allocates
as they are needed. A slot is free while its name is empty.

`Files.slot` is the table as a function from descriptor numbers to descriptors, and `TableOk` the
invariant that makes it one: the pages are in use, they are different ones, and they are those
that `fd_count` counts.

## Main results

* `TableOk.openSlot` — opening fills the first free slot and leaves the others alone;
* `descriptors_correct` — the calls of a task keep their contracts in every run in which no path
  leads to an empty name;
* `open_twice` — two calls of `openFile` return the same descriptor.
-/

namespace Sbunix

open ByteMem Runs

/-- `struct fileDescriptor`; nothing reads its field `fd`. -/
structure FileDescriptor where
  start : Nat
  offset : Nat
  dPrevDir : List UInt8
  name : List UInt8
  dDirp : Nat
  deriving DecidableEq, Repr

/-- A descriptor on a fresh page. -/
def FileDescriptor.zeroed : FileDescriptor := ⟨0, 0, [], [], 0⟩

/-- `sizeof(struct fileDescriptor)`. -/
def fdSize : Nat := 544

/-- Memory with the descriptors in it, under their kernel virtual addresses. -/
structure Files where
  phys : Phys
  fds : Nat → FileDescriptor

namespace Files

/-- `kmalloc`, as the address it returns; the descriptors on the page are cleared. -/
def kmalloc (s : Files) : Nat × Files :=
  let page := s.phys.kmalloc
  (kernbase + page.1,
    { phys := page.2
      fds := fun a =>
        if kernbase + page.1 ≤ a ∧ a < kernbase + page.1 + 0x1000 then .zeroed else s.fds a })

/-- `fd_pointers[page]`. -/
def pointer (s : Files) (task page : Nat) : Nat := (s.phys.tasks task).fdPointers.getD page 0

/-- The address of a slot. -/
def slotAddr (s : Files) (task n : Nat) : Nat := s.pointer task (n / 5) + fdSize * (n % 5)

/-- **The descriptor table of a task.** Slots on pages that are not there yet are free. -/
def slot (s : Files) (task n : Nat) : FileDescriptor :=
  if s.pointer task (n / 5) = 0 then .zeroed else s.fds (s.slotAddr task n)

/-- The slot is in use. -/
def IsOpen (s : Files) (task n : Nat) : Prop := (s.slot task n).name ≠ []

instance (s : Files) (task n : Nat) : Decidable (s.IsOpen task n) :=
  inferInstanceAs (Decidable (_ ≠ _))

def setFd (s : Files) (a : Nat) (d : FileDescriptor) : Files :=
  { s with fds := Function.update s.fds a d }

/-- `get_fd_address`, for `fd ≥ 0`; 0 is `NULL`. Behind the table lies `fd_count`, which is no
address. -/
def getFdAddress (s : Files) (task fd : Nat) : Option Nat :=
  if fd / 5 < 20 then
    some (if s.pointer task (fd / 5) ≠ 0 then s.pointer task (fd / 5) + fdSize * (fd % 5) else 0)
  else none

/-- `if (page_address == 0) { … }`: a page of the table, allocated if it is missing. -/
def ensurePage (s : Files) (task page : Nat) : Nat × Files :=
  if s.pointer task page = 0 then
    let new := s.kmalloc
    let t := new.2.phys.tasks task
    (new.1, { new.2 with
      phys := new.2.phys.setTask task
        { t with fdPointers := t.fdPointers.set page new.1, fdCount := t.fdCount + 5 } })
  else (s.pointer task page, s)

/-- The search for a slot with an empty name, page by page; descriptors 0, 1 and 2 are reserved.
The result is the number of the slot and its address. -/
def findSlot (s : Files) (task : Nat) : List Nat → Option (Nat × Nat) × Files
  | [] => (none, s)
  | page :: rest =>
    let p := s.ensurePage task page
    match (List.range 5).find? fun fd =>
        decide (2 < 5 * page + fd ∧ (p.2.fds (p.1 + fdSize * fd)).name = []) with
    | some fd => (some (5 * page + fd, p.1 + fdSize * fd), p.2)
    | none => p.2.findSlot task rest

/-- The common end of `openFile` and `openDirectory`: the first free slot is filled. -/
def openSlot (s : Files) (task : Nat) (name : List UInt8) (start : Nat) (dirp : Nat → Nat) :
    Option (Nat × Nat) × Files :=
  let found := s.findSlot task (List.range 20)
  match found.1 with
  | none => found
  | some slot => (some slot, found.2.setFd slot.2 ⟨start, start, [], name, dirp slot.2⟩)

section Calls

variable (m : Mem) (ar : Archive)

/-- `openFile`. -/
def openFile (s : Files) (task : Nat) (cwd file : List UInt8) : Option (Int × Files) :=
  if file = [] then some (-1, s)
  else do
    let (start, name) ← resolveFile m ar cwd file
    if start = 0 then some (-1, s)
    else
      let r := s.openSlot task name start fun _ => 0
      some ((r.1.map fun slot => (slot.1 : Int)).getD (-1), r.2)

/-- `openDirectory`; the handle is the address of the slot, 0 is `NULL`. -/
def openDirectory (s : Files) (task : Nat) (cwd dir : List UInt8) : Option (Nat × Files) :=
  if dir = [] then some (0, s)
  else do
    let (start, name) ← resolveDir m ar cwd dir
    if start = 0 then some (0, s)
    else
      let r := s.openSlot task name start id
      some ((r.1.map fun slot => slot.2).getD 0, r.2)

/-- `readFile`, with the bytes it delivers. Descriptor 0 is the terminal. -/
def readFile (s : Files) (task : Nat) (fd count : Int) : Option (List UInt8 × Int × Files) :=
  if fd < 0 then some ([], -1, s)
  else if fd = 0 then some ([], 0, s)
  else do
    let a ← s.getFdAddress task fd.toNat
    if a = 0 then some ([], -1, s)
    else
      let d := s.fds a
      if d.name ≠ [] then
        let bytes := memread m d.offset count.toNat
        some (bytes, bytes.length, s.setFd a { d with offset := d.offset + bytes.length })
      else some ([], -1, s)

end Calls

/-- `if (fd_struct->name[0] != '\0') fd_struct->name[0] = '\0';`. -/
def clearName (s : Files) (a : Nat) : Files :=
  if (s.fds a).name ≠ [] then s.setFd a { s.fds a with name := [] } else s

/-- `closeFile`. -/
def closeFile (s : Files) (task : Nat) (fd : Int) : Option (Int × Files) :=
  if fd < 0 then some (1, s)
  else do
    let a ← s.getFdAddress task fd.toNat
    if a = 0 then some (1, s) else some (0, s.clearName a)

/-- The loop of `get_fd` over the pages. -/
def getFdLoop (s : Files) (task dirp : Nat) : List Nat → Option Nat
  | [] => none
  | page :: rest =>
    if s.pointer task page = 0 then none
    else
      match (List.range 5).find? fun fd =>
          decide (2 < 5 * page + fd ∧ (s.fds (s.pointer task page + fdSize * fd)).dDirp = dirp) with
      | some fd => some (5 * page + fd)
      | none => s.getFdLoop task dirp rest

/-- `get_fd`. -/
def getFd (s : Files) (task dirp : Nat) : Option Nat :=
  s.getFdLoop task dirp (List.range ((s.phys.tasks task).fdCount / 5))

/-- `closeDir`. -/
def closeDir (s : Files) (task dirp : Nat) : Option (Int × Files) :=
  if dirp = 0 then some (0, s)
  else
    match s.getFd task dirp with
    | none => some (0, s)
    | some fd => do
      let a ← s.getFdAddress task fd
      if a = 0 then some (1, s) else some (0, s.clearName a)

/-! ### Pages of descriptors -/

variable {s s' s'' : Files} {task task' page n p : Nat} {name : List UInt8} {start : Nat}

/-- A page of the kernel in use. -/
def PageAt (s : Files) (p : Nat) : Prop :=
  ∃ f, p = kernbase + f ∧ f % 4096 = 0 ∧ f / 4096 < maxFrames ∧
    ¬ IsFree s.phys.availFrames (f / 4096)

/-- **A well-formed table.** -/
structure TableOk (s : Files) (task : Nat) : Prop where
  /-- The record of the task lies on a page in use, … -/
  record : s.PageAt task
  length : (s.phys.tasks task).fdPointers.length = 20
  /-- … and so do the descriptors, on different pages. -/
  pages : ∀ i, s.pointer task i ≠ 0 → s.PageAt (s.pointer task i) ∧ s.pointer task i ≠ task
  distinct : ∀ i j, s.pointer task i ≠ 0 → s.pointer task i = s.pointer task j → i = j
  count : ∃ c ≤ 20, (s.phys.tasks task).fdCount = 5 * c ∧ ∀ i < 20, s.pointer task i ≠ 0 ↔ i < c
  /-- The handle of a directory is the address of its slot. -/
  handles : ∀ n, (s.slot task n).dDirp = 0 ∨ (s.slot task n).dDirp = s.slotAddr task n

/-- **What allocating a page leaves alone**: pages in use, with the records and descriptors on
them; but the record of `task` may change. -/
structure Extends (task : Nat) (s s' : Files) : Prop where
  page : ∀ p, s.PageAt p → s'.PageAt p
  tasks : ∀ p, s.PageAt p → p ≠ task → s'.phys.tasks p = s.phys.tasks p
  fds : ∀ p, s.PageAt p → ∀ i < 4096, s'.fds (p + i) = s.fds (p + i)
  /-- What `task` gets in its table was not in use. -/
  pointers : ∀ i, s'.pointer task i = s.pointer task i ∨ ¬ s.PageAt (s'.pointer task i)

theorem Extends.refl (task : Nat) (s : Files) : Extends task s s :=
  ⟨fun _ h => h, fun _ _ _ => rfl, fun _ _ _ _ => rfl, fun _ => Or.inl rfl⟩

theorem Extends.trans (h : Extends task s s') (h' : Extends task s' s'') : Extends task s s'' :=
  ⟨fun p hp => h'.page p (h.page p hp),
    fun p hp hne => (h'.tasks p (h.page p hp) hne).trans (h.tasks p hp hne),
    fun p hp i hi => (h'.fds p (h.page p hp) i hi).trans (h.fds p hp i hi), fun i => by
      rcases h'.pointers i with hi | hi
      · rw [hi]
        exact h.pointers i
      · exact Or.inr fun hc => hi (h.page _ hc)⟩

/-- Two addresses of slots are the same only for the same slot of the same page. -/
theorem slot_addr_inj {p q i j : Nat} (hp : s.PageAt p) (hq : s'.PageAt q) (hi : i < 5)
    (hj : j < 5) (h : p + fdSize * i = q + fdSize * j) : p = q ∧ i = j := by
  obtain ⟨f, rfl, hf, -⟩ := hp
  obtain ⟨g, rfl, hg, -⟩ := hq
  unfold fdSize at h
  unfold kernbase at h ⊢
  omega

theorem pageAt_ne_zero (h : s.PageAt p) : p ≠ 0 := by
  obtain ⟨f, rfl, -⟩ := h
  unfold kernbase
  omega

/-- The table of another task does not change. -/
theorem Extends.pointer (h : Extends task s s') (ht : s.PageAt task') (hne : task' ≠ task)
    (i : Nat) : s'.pointer task' i = s.pointer task' i := by
  rw [Files.pointer, Files.pointer, h.tasks task' ht hne]

theorem slot_of_pointer {p : Nat} (h : s.pointer task (n / 5) = p) (hp : p ≠ 0) :
    s.slot task n = s.fds (p + fdSize * (n % 5)) := by
  rw [slot, slotAddr, h, if_neg hp]

/-- A table is well-formed by its pointers and by what lies on its pages: a record that has the
pointers of another has the same descriptors. -/
theorem TableOk.copy (h : s.TableOk task) (hpage : ∀ p, s.PageAt p → s'.PageAt p)
    (hfds : ∀ p, s.PageAt p → ∀ i < 4096, s'.fds (p + i) = s.fds (p + i))
    (hrecord : s'.PageAt task')
    (hpointers : (s'.phys.tasks task').fdPointers = (s.phys.tasks task).fdPointers)
    (hcount : (s'.phys.tasks task').fdCount = (s.phys.tasks task).fdCount)
    (hne : ∀ i, s.pointer task i ≠ 0 → s.pointer task i ≠ task') :
    s'.TableOk task' ∧ ∀ n, s'.slot task' n = s.slot task n := by
  have hptr : ∀ i, s'.pointer task' i = s.pointer task i := fun i => by
    rw [Files.pointer, Files.pointer, hpointers]
  have hslot : ∀ n, s'.slot task' n = s.slot task n := fun n => by
    by_cases h0 : s.pointer task (n / 5) = 0
    · rw [Files.slot, Files.slot, hptr, if_pos h0, if_pos h0]
    · rw [slot_of_pointer (hptr _) h0, slot_of_pointer rfl h0]
      refine hfds _ (h.pages _ h0).1 _ ?_
      unfold fdSize
      omega
  refine ⟨⟨hrecord, by rw [hpointers, h.length], fun i hi => ?_, fun i j hi hij => ?_, ?_,
    fun n => ?_⟩, hslot⟩
  · rw [hptr] at hi ⊢
    exact ⟨hpage _ (h.pages i hi).1, hne i hi⟩
  · rw [hptr] at hi
    rw [hptr, hptr] at hij
    exact h.distinct i j hi hij
  · simpa only [hcount, hptr] using h.count
  · rw [hslot, slotAddr, hptr]
    exact h.handles n

/-- The record of the task itself does not change. -/
theorem TableOk.congr (h : s.TableOk task) (hpage : ∀ p, s.PageAt p → s'.PageAt p)
    (hrec : s'.phys.tasks task = s.phys.tasks task)
    (hfds : ∀ p, s.PageAt p → ∀ i < 4096, s'.fds (p + i) = s.fds (p + i)) :
    s'.TableOk task ∧ ∀ n, s'.slot task n = s.slot task n :=
  h.copy hpage hfds (hpage _ h.record) (by rw [hrec]) (by rw [hrec]) fun i hi => (h.pages i hi).2

/-- Nor do its descriptors. -/
theorem Extends.slot (h : Extends task s s') (ht : s.TableOk task') (hne : task' ≠ task)
    (n : Nat) : s'.slot task' n = s.slot task' n :=
  (ht.congr h.page (h.tasks task' ht.record hne) h.fds).2 n

theorem TableOk.extends (ht : s.TableOk task') (h : Extends task s s') (hne : task' ≠ task) :
    s'.TableOk task' :=
  (ht.congr h.page (h.tasks task' ht.record hne) h.fds).1

theorem kmalloc_fst (s : Files) : s.kmalloc.1 = kernbase + s.phys.kmalloc.1 := by
  simp only [kmalloc]

theorem kmalloc_phys (s : Files) : s.kmalloc.2.phys = s.phys.kmalloc.2 := by
  simp only [kmalloc]

theorem kmalloc_fds (s : Files) (a : Nat) : s.kmalloc.2.fds a =
    if s.kmalloc.1 ≤ a ∧ a < s.kmalloc.1 + 0x1000 then .zeroed else s.fds a := by
  rw [kmalloc]

/-- **What `kmalloc` does**: the page `p` was not in use, and it comes with an empty record and
empty descriptors. -/
structure Fresh (s s' : Files) (p : Nat) : Prop where
  page : ∀ q, s.PageAt q → s'.PageAt q
  new : s'.PageAt p
  ne : ∀ q, s.PageAt q → q ≠ p
  tasks : ∀ q, s.PageAt q → s'.phys.tasks q = s.phys.tasks q
  fds : ∀ q, s.PageAt q → ∀ i < 4096, s'.fds (q + i) = s.fds (q + i)
  cleared : ∀ i < 4096, s'.fds (p + i) = .zeroed
  record : s'.phys.tasks p = .zeroed

theorem kmalloc_fresh (hx : s.kmalloc.2.phys.exhausted = false) :
    Fresh s s.kmalloc.2 s.kmalloc.1 := by
  rw [kmalloc_phys] at hx
  obtain ⟨ht, -, hrecord⟩ := kmalloc_taken hx
  -- pages in use are not free, and the new one was
  have hfresh : ∀ p, s.PageAt p → p ≠ s.kmalloc.1 := by
    rintro p ⟨f, rfl, -, -, hfree⟩ hc
    rw [kmalloc_fst] at hc
    have hff : f = s.phys.kmalloc.1 := Nat.add_left_cancel hc
    exact hfree (hff ▸ ht.free)
  refine ⟨?_, ?_, hfresh, ?_, ?_, fun i hi => ?_, ?_⟩
  · rintro p ⟨f, rfl, hal, hlt, hfree⟩
    refine ⟨f, rfl, hal, hlt, fun hc => hfree ?_⟩
    rw [kmalloc_phys] at hc
    exact ((ht.bits _).mp hc).2
  · rw [PageAt, kmalloc_phys]
    exact ⟨_, kmalloc_fst s, ht.aligned, ht.lt, fun hc => ((ht.bits _).mp hc).1 rfl⟩
  · intro p hp
    have hne := hfresh p hp
    obtain ⟨f, rfl, -⟩ := hp
    rw [kmalloc_phys]
    exact ht.tasks f fun hc => hne (by rw [hc, kmalloc_fst])
  · intro p hp i hi
    have hne := hfresh p hp
    obtain ⟨f, rfl, hal, -⟩ := hp
    have hal' := ht.aligned
    rw [kmalloc_fst] at hne
    rw [kmalloc_fds, kmalloc_fst, if_neg (by omega)]
  · rw [kmalloc_fds]
    exact if_pos ⟨Nat.le_add_right _ _, Nat.add_lt_add_left hi _⟩
  · rw [kmalloc_fst, kmalloc_phys]
    exact hrecord

theorem Fresh.extends (h : Fresh s s' p) (htask : s.PageAt task) : Extends task s s' :=
  ⟨h.page, fun q hq _ => h.tasks q hq, h.fds, fun i => by
    left
    rw [pointer, pointer, h.tasks task htask]⟩

/-! ### Opening -/

theorem getD_set {l : List Nat} {i j v : Nat} (hi : i < l.length) :
    (l.set i v).getD j 0 = if j = i then v else l.getD j 0 := by
  simp only [List.getD_eq_getElem?_getD, List.getElem?_set]
  by_cases hj : i = j
  · subst hj
    rw [if_pos rfl, if_pos hi, if_pos rfl, Option.getD_some]
  · rw [if_neg hj, if_neg fun hc => hj hc.symm]

/-- **A missing page is added** to the end of the table, with empty slots. -/
theorem TableOk.ensurePage (h : s.TableOk task) (hpage : page < 20)
    (hc : 5 * page ≤ (s.phys.tasks task).fdCount)
    (hx : (s.ensurePage task page).2.phys.exhausted = false) :
    (s.ensurePage task page).2.TableOk task ∧ Extends task s (s.ensurePage task page).2 ∧
      (∀ n, (s.ensurePage task page).2.slot task n = s.slot task n) ∧
      (s.ensurePage task page).2.pointer task page = (s.ensurePage task page).1 ∧
      (s.ensurePage task page).1 ≠ 0 ∧
      5 * (page + 1) ≤ ((s.ensurePage task page).2.phys.tasks task).fdCount := by
  obtain ⟨c, hc20, hcount, hptr⟩ := h.count
  unfold Files.ensurePage at hx ⊢
  by_cases h0 : s.pointer task page = 0
  · rw [if_pos h0] at hx ⊢
    dsimp only at hx ⊢
    -- pages are added in order: the missing one is the next
    have hpc : page = c := by
      have := (hptr page hpage).not.mp (not_not.mpr h0)
      omega
    have hk := kmalloc_fresh (s := s) hx
    have hext := hk.extends h.record
    obtain ⟨-, hnew, hfresh, htasks, -, hzero, -⟩ := hk
    generalize s.kmalloc = new at hext hnew hfresh htasks hzero ⊢
    have hrec := htasks task h.record
    have hne0 := pageAt_ne_zero hnew
    set t := s.phys.tasks task with ht
    set s' : Files := { new.2 with phys := new.2.phys.setTask task { new.2.phys.tasks task with
      fdPointers := (new.2.phys.tasks task).fdPointers.set page new.1
      fdCount := (new.2.phys.tasks task).fdCount + 5 } } with hs'
    have hself : s'.phys.tasks task = { t with
        fdPointers := t.fdPointers.set page new.1, fdCount := t.fdCount + 5 } := by
      rw [hs']
      simp only [Phys.setTask, Function.update_self, hrec]
    have hother : ∀ p, p ≠ task → s'.phys.tasks p = new.2.phys.tasks p := fun p hp => by
      rw [hs']
      simp only [Phys.setTask, Function.update_of_ne hp]
    have hpointer : ∀ i, s'.pointer task i = if i = page then new.1 else s.pointer task i :=
      fun i => by
        rw [Files.pointer, hself]
        exact getD_set (by rw [ht, h.length]; exact hpage)
    have hext' : Extends task s s' := ⟨hext.page, fun p hp hne => by
      rw [hother p hne, hext.tasks p hp hne], hext.fds, fun i => by
      rw [hpointer]
      split
      · exact Or.inr fun hc => hfresh _ hc rfl
      · exact Or.inl rfl⟩
    -- a slot on the new page is empty, as it was without a page
    have hslot : ∀ n, s'.slot task n = s.slot task n := fun n => by
      by_cases hn : n / 5 = page
      · have hs : s.pointer task (n / 5) = 0 := by rw [hn, h0]
        rw [slot_of_pointer (by rw [hpointer, if_pos hn]) hne0, slot, if_pos hs]
        exact hzero _ (by unfold fdSize; omega)
      · have hs : s'.pointer task (n / 5) = s.pointer task (n / 5) := by rw [hpointer, if_neg hn]
        by_cases hz : s.pointer task (n / 5) = 0
        · rw [slot, slot, hs, if_pos hz, if_pos hz]
        · rw [slot_of_pointer hs hz, slot_of_pointer rfl hz]
          exact hext.fds _ (h.pages _ hz).1 _ (by unfold fdSize; omega)
    -- the table with the new page at its end is well-formed
    refine ⟨⟨hext'.page _ h.record, ?_, fun i hi => ?_, fun i j hi hij => ?_,
      ⟨c + 1, by omega, ?_, ?_⟩, fun n => ?_⟩, hext', hslot, by rw [hpointer, if_pos rfl], hne0, ?_⟩
    · rw [hself]
      simp only [List.length_set, ht, h.length]
    · rw [hpointer] at hi ⊢
      split
      · exact ⟨hnew, fun hc => hfresh _ h.record hc.symm⟩
      · next hip =>
        rw [if_neg hip] at hi
        exact ⟨hext.page _ (h.pages i hi).1, (h.pages i hi).2⟩
    · rw [hpointer] at hi hij
      rw [hpointer] at hij
      split_ifs at hi hij with h₁ h₂ h₂
      · omega
      · exact absurd hij.symm (hfresh _ (h.pages j (hij ▸ hi)).1)
      · exact absurd hij (hfresh _ (h.pages i hi).1)
      · exact h.distinct i j hi hij
    · rw [hself]
      simp only [hcount]
      omega
    · intro i hi
      rw [hpointer]
      split
      · next hip => exact ⟨fun _ => by omega, fun _ => hne0⟩
      · next hip =>
        rw [hptr i hi]
        omega
    · rw [hslot]
      rcases h.handles n with hz | hz
      · exact Or.inl hz
      · by_cases hn : n / 5 = page
        · left
          rw [slot, hn, if_pos h0]
          rfl
        · right
          rw [hz, slotAddr, slotAddr, hpointer, if_neg hn]
    · rw [hself]
      simp only [hcount]
      omega
  · rw [if_neg h0]
    have := (hptr page hpage).mp h0
    refine ⟨h, .refl task s, fun _ => rfl, rfl, h0, ?_⟩
    show 5 * (page + 1) ≤ (s.phys.tasks task).fdCount
    omega

theorem ensurePage_alive (hx : (s.ensurePage task page).2.phys.exhausted = false) :
    s.phys.exhausted = false := by
  unfold Files.ensurePage at hx
  split at hx
  · replace hx : s.kmalloc.2.phys.exhausted = false := hx
    rw [kmalloc_phys] at hx
    exact (kmalloc_taken hx).1.live
  · exact hx

theorem findSlot_alive {ps : List Nat} (hx : (s.findSlot task ps).2.phys.exhausted = false) :
    s.phys.exhausted = false := by
  induction ps generalizing s with
  | nil => exact hx
  | cons page rest ih =>
    rw [Files.findSlot] at hx
    split at hx
    · exact ensurePage_alive hx
    · exact ensurePage_alive (ih hx)

/-- A slot that may be handed out. -/
def Vacant (t : Nat → FileDescriptor) (n : Nat) : Bool := decide (2 < n ∧ (t n).name = [])

/-- A search through the slots of a page and of those behind it. -/
theorem find?_page (q : Nat → Bool) (j k : Nat) :
    (List.range' (5 * j) (5 * (k + 1))).find? q =
      (((List.range 5).find? fun i => q (5 * j + i)).map (5 * j + ·)).or
        ((List.range' (5 * (j + 1)) (5 * k)).find? q) := by
  rw [show 5 * (k + 1) = 5 + 5 * k by omega, ← List.range'_append, List.find?_append,
    List.range'_eq_map_range, List.find?_map]
  rfl

/-- **The search** finds the first vacant slot, and changes nothing that is there. -/
theorem TableOk.findSlot {j k : Nat} (h : s.TableOk task) (hjk : j + k = 20)
    (hc : 5 * j ≤ (s.phys.tasks task).fdCount)
    (hx : (s.findSlot task (List.range' j k)).2.phys.exhausted = false) :
    (s.findSlot task (List.range' j k)).2.TableOk task ∧
      Extends task s (s.findSlot task (List.range' j k)).2 ∧
      (∀ n, (s.findSlot task (List.range' j k)).2.slot task n = s.slot task n) ∧
      (s.findSlot task (List.range' j k)).1.map Prod.fst =
        (List.range' (5 * j) (5 * k)).find? (Vacant (s.slot task)) ∧
      ∀ x ∈ (s.findSlot task (List.range' j k)).1,
        x.2 = (s.findSlot task (List.range' j k)).2.slotAddr task x.1 ∧
        (s.findSlot task (List.range' j k)).2.pointer task (x.1 / 5) ≠ 0 := by
  induction k generalizing s j with
  | zero => exact ⟨h, .refl task s, fun _ => rfl, rfl, fun x hx => by cases hx⟩
  | succ k ih =>
    rw [List.range'_succ, Files.findSlot] at hx ⊢
    have hxp : (s.ensurePage task j).2.phys.exhausted = false := by
      split at hx
      · exact hx
      · exact findSlot_alive hx
    obtain ⟨hok, hext, hslot, hptr, hne, hcount⟩ := h.ensurePage (by omega) hc hxp
    generalize s.ensurePage task j = p at hx hok hext hslot hptr hne hcount ⊢
    -- the slots of this page
    have haddr : ∀ i < 5, p.2.fds (p.1 + fdSize * i) = s.slot task (5 * j + i) := fun i hi => by
      have hdiv : (5 * j + i) / 5 = j := by omega
      have hmod : (5 * j + i) % 5 = i := by omega
      rw [← hslot, slot_of_pointer (by rw [hdiv, hptr]) hne, hmod]
    have hfind : ((List.range 5).find? fun fd =>
        decide (2 < 5 * j + fd ∧ (p.2.fds (p.1 + fdSize * fd)).name = [])) =
        (List.range 5).find? fun fd => Vacant (s.slot task) (5 * j + fd) := by
      refine List.find?_congr fun i hi => ?_
      rw [Vacant, haddr i (List.mem_range.mp hi)]
    rw [hfind] at hx ⊢
    rw [find?_page]
    rcases hf : (List.range 5).find? fun fd => Vacant (s.slot task) (5 * j + fd) with _ | i
    · simp only [hf] at hx ⊢
      obtain ⟨hok', hext', hslot', hfst, hmem⟩ := ih hok (by omega) hcount hx
      refine ⟨hok', hext.trans hext', fun n => (hslot' n).trans (hslot n), ?_, hmem⟩
      rw [hfst]
      simp only [Option.map_none, Option.none_or, funext hslot]
    · have hi := List.mem_range.mp (List.mem_of_find?_eq_some hf)
      refine ⟨hok, hext, hslot, rfl, fun x hx => ?_⟩
      obtain rfl := Option.mem_some.mp hx
      have hdiv : (5 * j + i) / 5 = j := by omega
      have hmod : (5 * j + i) % 5 = i := by omega
      refine ⟨?_, ?_⟩
      · rw [slotAddr, hdiv, hmod, hptr]
      · show p.2.pointer task ((5 * j + i) / 5) ≠ 0
        rwa [hdiv, hptr]

theorem slot_setFd (s : Files) (a : Nat) (d : FileDescriptor) (task n : Nat) :
    (s.setFd a d).slot task n =
      if s.pointer task (n / 5) ≠ 0 ∧ s.slotAddr task n = a then d else s.slot task n := by
  by_cases h0 : s.pointer task (n / 5) = 0
  · rw [if_neg fun hc => hc.1 h0, slot, slot, if_pos h0]
    exact if_pos h0
  · rw [slot_of_pointer (s := s.setFd a d) rfl h0, slot_of_pointer rfl h0]
    by_cases ha : s.slotAddr task n = a
    · rw [if_pos ⟨h0, ha⟩, setFd, ← ha]
      exact Function.update_self ..
    · rw [if_neg fun hc => ha hc.2, setFd]
      exact Function.update_of_ne ha ..

/-- The slots of a table have different addresses. -/
theorem TableOk.slotAddr_inj (h : s.TableOk task) {n k : Nat} (hn : s.pointer task (n / 5) ≠ 0)
    (hk : s.pointer task (k / 5) ≠ 0) (heq : s.slotAddr task n = s.slotAddr task k) : n = k := by
  obtain ⟨hp, hi⟩ := slot_addr_inj (h.pages _ hn).1 (h.pages _ hk).1 (Nat.mod_lt n (by decide))
    (Nat.mod_lt k (by decide)) heq
  have := h.distinct _ _ hn hp
  omega

/-- **Writing a slot** changes this descriptor and no other. -/
theorem TableOk.setFd (h : s.TableOk task) (hn : s.pointer task (n / 5) ≠ 0) {d : FileDescriptor}
    (hd : d.dDirp = 0 ∨ d.dDirp = s.slotAddr task n) :
    (s.setFd (s.slotAddr task n) d).TableOk task ∧
      ∀ k, (s.setFd (s.slotAddr task n) d).slot task k = if k = n then d else s.slot task k := by
  have hslot : ∀ k, (s.setFd (s.slotAddr task n) d).slot task k =
      if k = n then d else s.slot task k := fun k => by
    rw [slot_setFd]
    by_cases hk : k = n
    · rw [if_pos hk, if_pos ⟨hk ▸ hn, by rw [hk]⟩]
    · rw [if_neg hk, if_neg fun hc => hk (h.slotAddr_inj hc.1 hn hc.2)]
  refine ⟨⟨h.record, h.length, h.pages, h.distinct, h.count, fun k => ?_⟩, hslot⟩
  rw [hslot]
  split
  · next hk =>
    subst hk
    exact hd
  · exact h.handles k

/-- **`openSlot`** fills the first vacant slot, if there is one. -/
theorem TableOk.openSlot (h : s.TableOk task) {dirp : Nat → Nat}
    (hd : ∀ a, dirp a = 0 ∨ dirp a = a)
    (hx : (s.openSlot task name start dirp).2.phys.exhausted = false) :
    (s.openSlot task name start dirp).2.TableOk task ∧
      match (List.range 100).find? (Vacant (s.slot task)) with
      | none => (s.openSlot task name start dirp).1 = none ∧
          ∀ k, (s.openSlot task name start dirp).2.slot task k = s.slot task k
      | some n => ∃ a, (s.openSlot task name start dirp).1 = some (n, a) ∧
          a = (s.openSlot task name start dirp).2.slotAddr task n ∧ a ≠ 0 ∧
          ∀ k, (s.openSlot task name start dirp).2.slot task k =
            if k = n then ⟨start, start, [], name, dirp a⟩ else s.slot task k := by
  unfold Files.openSlot at hx ⊢
  have hxf : (s.findSlot task (List.range 20)).2.phys.exhausted = false := by
    dsimp only at hx
    split at hx
    · exact hx
    · exact hx
  rw [List.range_eq_range'] at hx hxf ⊢
  -- the search changes nothing but that it adds pages
  obtain ⟨hok, -, hslot, hfst, hmem⟩ := h.findSlot (j := 0) (by decide) (Nat.zero_le _) hxf
  rw [show 5 * 0 = 0 from rfl, show 5 * 20 = 100 from rfl] at hfst
  rw [List.range_eq_range', ← hfst]
  generalize s.findSlot task (List.range' 0 20) = found at hx hok hslot hmem ⊢
  rcases hf : found.1 with _ | ⟨n, a⟩
  · simp only [hf, Option.map_none]
    exact ⟨hok, trivial, hslot⟩
  · simp only [hf, Option.map_some]
    obtain ⟨ha, hptr⟩ := hmem (n, a) hf
    obtain rfl : a = found.2.slotAddr task n := ha
    replace hptr : found.2.pointer task (n / 5) ≠ 0 := hptr
    obtain ⟨hok', hslot'⟩ := hok.setFd hptr (d := ⟨start, start, [], name,
      dirp (found.2.slotAddr task n)⟩) (hd _)
    refine ⟨hok', _, rfl, rfl, ?_, fun k => ?_⟩
    · have := pageAt_ne_zero (hok.pages _ hptr).1
      unfold slotAddr
      omega
    · rw [hslot', hslot]

/-- The slot that `openSlot` hands out was vacant; if it hands out none, no slot was. -/
theorem TableOk.openSlot_cases (h : s.TableOk task) {dirp : Nat → Nat}
    (hd : ∀ a, dirp a = 0 ∨ dirp a = a)
    (hx : (s.openSlot task name start dirp).2.phys.exhausted = false) :
    (s.openSlot task name start dirp).2.TableOk task ∧
      ((∃ n a, (s.openSlot task name start dirp).1 = some (n, a) ∧ 2 < n ∧ n < 100 ∧
          (s.slot task n).name = [] ∧
          a = (s.openSlot task name start dirp).2.slotAddr task n ∧ a ≠ 0 ∧
          ∀ k, (s.openSlot task name start dirp).2.slot task k =
            if k = n then ⟨start, start, [], name, dirp a⟩ else s.slot task k) ∨
        (s.openSlot task name start dirp).1 = none ∧
          (∀ k, (s.openSlot task name start dirp).2.slot task k = s.slot task k) ∧
          ∀ n, 2 < n → n < 100 → (s.slot task n).name ≠ []) := by
  obtain ⟨hok, hcase⟩ := h.openSlot hd hx
  refine ⟨hok, ?_⟩
  rw [List.range_eq_range'] at hcase
  rcases hf : (List.range' 0 100).find? (Vacant (s.slot task)) with _ | n
  · rw [hf] at hcase
    refine Or.inr ⟨hcase.1, hcase.2, fun n hn hn' => ?_⟩
    have := List.find?_range'_eq_none.mp hf n (Nat.zero_le n) (by omega)
    simp only [Vacant, Bool.not_eq_true', decide_eq_false_iff_not, not_and] at this
    exact this hn
  · rw [hf] at hcase
    obtain ⟨a, hr, ha, ha0, hslot⟩ := hcase
    have hv : 2 < n ∧ (s.slot task n).name = [] := by
      simpa only [Vacant, decide_eq_true_eq] using List.find?_some hf
    obtain ⟨-, hlt⟩ := List.mem_range'_1.mp (List.mem_of_find?_eq_some hf)
    exact Or.inl ⟨n, a, hr, hv.1, by omega, hv.2, ha, ha0, hslot⟩

/-! ### Closing -/

/-- The search of `get_fd`, through the pages that are there. -/
theorem TableOk.getFd (h : s.TableOk task) (dirp : Nat) : ∃ c ≤ 20,
    (∀ i < c, s.pointer task i ≠ 0) ∧ (∀ i < 20, c ≤ i → s.pointer task i = 0) ∧
    s.getFd task dirp = (List.range' 0 (5 * c)).find? fun n =>
      decide (2 < n ∧ (s.slot task n).dDirp = dirp) := by
  obtain ⟨c, hc, hcount, hptr⟩ := h.count
  refine ⟨c, hc, fun i hi => (hptr i (by omega)).mpr hi, fun i hi hci => ?_, ?_⟩
  · by_contra hne
    have := (hptr i hi).mp hne
    omega
  · rw [Files.getFd, hcount, Nat.mul_div_cancel_left c (by decide), List.range_eq_range']
    -- page by page: the loop over the pages is a search through all their slots
    have hall : ∀ j k, j + k = c → s.getFdLoop task dirp (List.range' j k) =
        (List.range' (5 * j) (5 * k)).find? fun n =>
          decide (2 < n ∧ (s.slot task n).dDirp = dirp) := by
      intro j k hjk
      induction k generalizing j with
      | zero => rfl
      | succ k ih =>
        have hne := (hptr j (by omega)).mpr (by omega)
        rw [List.range'_succ, getFdLoop, if_neg hne, find?_page, ih (j + 1) (by omega)]
        have hfind : ((List.range 5).find? fun fd => decide (2 < 5 * j + fd ∧
            (s.fds (s.pointer task j + fdSize * fd)).dDirp = dirp)) =
            (List.range 5).find? fun fd => decide (2 < 5 * j + fd ∧
              (s.slot task (5 * j + fd)).dDirp = dirp) := by
          refine List.find?_congr fun i hi => ?_
          have hi := List.mem_range.mp hi
          rw [slot_of_pointer (n := 5 * j + i) (p := s.pointer task j)
            (by rw [show (5 * j + i) / 5 = j by omega]) hne, show (5 * j + i) % 5 = i by omega]
        rw [hfind]
        cases (List.range 5).find? fun fd => decide (2 < 5 * j + fd ∧
          (s.slot task (5 * j + fd)).dDirp = dirp) <;> rfl
    exact hall 0 c (by omega)

/-- `get_fd` finds the slot at the address, if there was a directory in it. -/
theorem TableOk.getFd_eq_some (h : s.TableOk task) {dirp : Nat} (hd : dirp ≠ 0) :
    s.getFd task dirp = some n ↔ 2 < n ∧ n < 100 ∧ s.pointer task (n / 5) ≠ 0 ∧
      s.slotAddr task n = dirp ∧ (s.slot task n).dDirp = dirp := by
  obtain ⟨c, hc, hin, hout, hfd⟩ := h.getFd dirp
  have hhandle : ∀ k, (s.slot task k).dDirp = dirp → s.slotAddr task k = dirp := fun k hk => by
    rcases h.handles k with hz | hz
    · exact absurd (hk.symm.trans hz) hd
    · exact hz.symm.trans hk
  rw [hfd]
  constructor
  · intro hn
    have hp : 2 < n ∧ (s.slot task n).dDirp = dirp := by simpa using List.find?_some hn
    obtain ⟨-, hlt⟩ := List.mem_range'_1.mp (List.mem_of_find?_eq_some hn)
    exact ⟨hp.1, by omega, hin _ (by omega), hhandle n hp.2, hp.2⟩
  · rintro ⟨h2, hlt, hne, haddr, hdd⟩
    have hnc : n < 5 * c := by
      by_contra hnc
      exact hne (hout _ (by omega) (by omega))
    rw [List.find?_range'_eq_some]
    refine ⟨by simp [h2, hdd], List.mem_range'_1.mpr ⟨Nat.zero_le n, by omega⟩, fun k _ hk => ?_⟩
    -- no slot before has the same handle
    have hnot : ¬ (2 < k ∧ (s.slot task k).dDirp = dirp) := fun ⟨_, hkd⟩ => by
      have hkn := h.slotAddr_inj (hin (k / 5) (by omega)) hne ((hhandle k hkd).trans haddr.symm)
      omega
    rw [Bool.not_eq_true', decide_eq_false_iff_not]
    exact hnot

/-! ### The calls of a task -/

/-- A call with its arguments; the current directory is part of those that take a path. -/
inductive Call
  | openFile (cwd file : List UInt8)
  | openDirectory (cwd dir : List UInt8)
  | readFile (fd count : Int)
  | closeFile (fd : Int)
  | closeDir (dirp : Nat)

section Calls

variable (m : Mem) (ar : Archive)

/-- The call of `task`, with the value it returns. -/
def call (s : Files) (task : Nat) : Call → Option (Int × Files)
  | .openFile cwd file => s.openFile m ar task cwd file
  | .openDirectory cwd dir => (s.openDirectory m ar task cwd dir).map fun r => ((r.1 : Int), r.2)
  | .readFile fd count => (s.readFile m task fd count).map Prod.snd
  | .closeFile fd => s.closeFile task fd
  | .closeDir dirp => s.closeDir task dirp

/-- **No path leads to an empty name.** -/
def Named : Call → Prop
  | .openFile cwd file => ∀ start, resolveFile m ar cwd file = some (start, []) → start = 0
  | .openDirectory cwd dir => ∀ start, resolveDir m ar cwd dir = some (start, []) → start = 0
  | _ => True

/-- The call does not find memory exhausted. -/
def Enough (s : Files) (task : Nat) (c : Call) : Prop :=
  ∀ r s', s.call m ar task c = some (r, s') → s'.phys.exhausted = false

/-- The path names nothing. -/
def Unknown : Call → Prop
  | .openFile cwd file => file = [] ∨ ∃ name, resolveFile m ar cwd file = some (0, name)
  | .openDirectory cwd dir => dir = [] ∨ ∃ name, resolveDir m ar cwd dir = some (0, name)
  | _ => False

/-- Slot `n` has been opened; nothing else has changed. -/
structure Opened (s s' : Files) (task n : Nat) : Prop where
  reserved : 3 ≤ n
  lt : n < 100
  free : ¬ s.IsOpen task n
  isOpen : s'.IsOpen task n
  others : ∀ k, k ≠ n → s'.slot task k = s.slot task k

/-- **The contract of the calls**: an open returns a descriptor that was free, or fails and changes
nothing; reading moves an offset, closing closes, and no other descriptor changes. -/
def Contract (s : Files) (task : Nat) : Call → Int → Files → Prop
  | .openFile cwd file, r, s' =>
    (∃ n : Nat, r = n ∧ Opened s s' task n) ∨
      r = -1 ∧ (∀ k, s'.slot task k = s.slot task k) ∧
        (Unknown m ar (.openFile cwd file) ∨ ∀ n, 3 ≤ n → n < 100 → s.IsOpen task n)
  | .openDirectory cwd dir, r, s' =>
    (∃ n : Nat, r = s'.slotAddr task n ∧ r ≠ 0 ∧ Opened s s' task n) ∨
      r = 0 ∧ (∀ k, s'.slot task k = s.slot task k) ∧
        (Unknown m ar (.openDirectory cwd dir) ∨ ∀ n, 3 ≤ n → n < 100 → s.IsOpen task n)
  | .readFile fd _, _, s' => ∀ k : Nat,
    (s'.slot task k).name = (s.slot task k).name ∧ (s'.slot task k).start = (s.slot task k).start ∧
      ((k : Int) ≠ fd → s'.slot task k = s.slot task k)
  | .closeFile fd, _, s' => ∀ k : Nat,
    ((k : Int) = fd → ¬ s'.IsOpen task k) ∧ ((k : Int) ≠ fd → s'.slot task k = s.slot task k)
  | .closeDir dirp, _, s' => ∀ k : Nat,
    (2 < k → k < 100 → dirp ≠ 0 → (s.slot task k).dDirp = dirp → ¬ s'.IsOpen task k) ∧
      (s.slotAddr task k ≠ dirp → s'.slot task k = s.slot task k)

end Calls

variable {m : Mem} {ar : Archive} {c : Call} {r : Int}

/-- What `openSlot` means for the table. -/
theorem TableOk.opened (h : s.TableOk task) {dirp : Nat → Nat}
    (hd : ∀ a, dirp a = 0 ∨ dirp a = a) (hname : name ≠ [])
    (hx : (s.openSlot task name start dirp).2.phys.exhausted = false) :
    (s.openSlot task name start dirp).2.TableOk task ∧
      ((∃ n a, (s.openSlot task name start dirp).1 = some (n, a) ∧
          a = (s.openSlot task name start dirp).2.slotAddr task n ∧ a ≠ 0 ∧
          Opened s (s.openSlot task name start dirp).2 task n) ∨
        (s.openSlot task name start dirp).1 = none ∧
          (∀ k, (s.openSlot task name start dirp).2.slot task k = s.slot task k) ∧
          ∀ n, 3 ≤ n → n < 100 → s.IsOpen task n) := by
  obtain ⟨hok, ⟨n, a, hr, hn, hlt, hv, ha, ha0, hslot⟩ | hnone⟩ := h.openSlot_cases hd hx
  · refine ⟨hok, Or.inl ⟨n, a, hr, ha, ha0, hn, hlt, fun hc => hc hv, ?_, fun k hk => ?_⟩⟩
    · rw [IsOpen, hslot, if_pos rfl]
      exact hname
    · rw [hslot, if_neg hk]
  · exact ⟨hok, Or.inr hnone⟩

theorem slotAddr_eq_of_getFdAddress {fd a : Nat} (h : s.getFdAddress task fd = some a)
    (ha : a ≠ 0) : fd < 100 ∧ s.pointer task (fd / 5) ≠ 0 ∧ a = s.slotAddr task fd := by
  unfold getFdAddress at h
  split at h
  · next hlt =>
    obtain rfl := Option.some.inj h
    by_cases h0 : s.pointer task (fd / 5) = 0
    · rw [if_neg (not_not.mpr h0)] at ha
      exact absurd rfl ha
    · rw [if_pos h0]
      exact ⟨by omega, h0, rfl⟩
  · cases h

theorem pointer_eq_zero_of_getFdAddress {fd : Nat} (h : s.getFdAddress task fd = some 0) :
    s.pointer task (fd / 5) = 0 := by
  unfold getFdAddress at h
  split at h
  · by_contra hne
    rw [if_pos hne] at h
    have := Option.some.inj h
    omega
  · cases h

/-- **Clearing a name** closes the slot. -/
theorem TableOk.clearName (h : s.TableOk task) (hn : s.pointer task (n / 5) ≠ 0) :
    (s.clearName (s.slotAddr task n)).TableOk task ∧
      ¬ (s.clearName (s.slotAddr task n)).IsOpen task n ∧
      ∀ k, k ≠ n → (s.clearName (s.slotAddr task n)).slot task k = s.slot task k := by
  have hfd : s.fds (s.slotAddr task n) = s.slot task n := (slot_of_pointer rfl hn).symm
  unfold Files.clearName
  split
  · obtain ⟨hok, hslot⟩ := h.setFd hn (d := { s.fds (s.slotAddr task n) with name := [] })
      (by rw [hfd]; exact h.handles n)
    refine ⟨hok, ?_, fun k hk => by rw [hslot, if_neg hk]⟩
    rw [IsOpen, hslot, if_pos rfl]
    exact fun hc => hc rfl
  · next hname =>
    refine ⟨h, ?_, fun _ _ => rfl⟩
    rw [IsOpen, ← hfd]
    exact hname

/-- **How `openFile` ends**: without a file, or at a slot. -/
theorem openFile_cases {cwd file : List UInt8}
    (hs : s.openFile m ar task cwd file = some (r, s')) :
    ((r = -1 ∧ s' = s) ∧ (file = [] ∨ ∃ name, resolveFile m ar cwd file = some (0, name))) ∨
      ∃ start name, file ≠ [] ∧ start ≠ 0 ∧ resolveFile m ar cwd file = some (start, name) ∧
        r = ((s.openSlot task name start fun _ => 0).1.map fun slot => (slot.1 : Int)).getD (-1) ∧
        s' = (s.openSlot task name start fun _ => 0).2 := by
  unfold Files.openFile at hs
  split at hs
  · next hf =>
    obtain ⟨rfl, rfl⟩ := Prod.mk.inj (Option.some.inj hs)
    exact Or.inl ⟨⟨rfl, rfl⟩, Or.inl hf⟩
  · next hf =>
    simp only [Option.bind_eq_bind] at hs
    obtain ⟨⟨start, name⟩, hres, hs⟩ := Option.bind_eq_some_iff.mp hs
    dsimp only at hs
    split at hs
    · next h0 =>
      obtain ⟨rfl, rfl⟩ := Prod.mk.inj (Option.some.inj hs)
      exact Or.inl ⟨⟨rfl, rfl⟩, Or.inr ⟨name, h0 ▸ hres⟩⟩
    · next h0 =>
      obtain ⟨rfl, rfl⟩ := Prod.mk.inj (Option.some.inj hs)
      exact Or.inr ⟨start, name, hf, h0, hres, rfl, rfl⟩

/-- **How `openDirectory` ends.** -/
theorem openDirectory_cases {cwd dir : List UInt8} {a : Nat}
    (hs : s.openDirectory m ar task cwd dir = some (a, s')) :
    ((a = 0 ∧ s' = s) ∧ (dir = [] ∨ ∃ name, resolveDir m ar cwd dir = some (0, name))) ∨
      ∃ start name, dir ≠ [] ∧ start ≠ 0 ∧ resolveDir m ar cwd dir = some (start, name) ∧
        a = ((s.openSlot task name start id).1.map fun slot => slot.2).getD 0 ∧
        s' = (s.openSlot task name start id).2 := by
  unfold Files.openDirectory at hs
  split at hs
  · next hf =>
    obtain ⟨rfl, rfl⟩ := Prod.mk.inj (Option.some.inj hs)
    exact Or.inl ⟨⟨rfl, rfl⟩, Or.inl hf⟩
  · next hf =>
    simp only [Option.bind_eq_bind] at hs
    obtain ⟨⟨start, name⟩, hres, hs⟩ := Option.bind_eq_some_iff.mp hs
    dsimp only at hs
    split at hs
    · next h0 =>
      obtain ⟨rfl, rfl⟩ := Prod.mk.inj (Option.some.inj hs)
      exact Or.inl ⟨⟨rfl, rfl⟩, Or.inr ⟨name, h0 ▸ hres⟩⟩
    · next h0 =>
      obtain ⟨rfl, rfl⟩ := Prod.mk.inj (Option.some.inj hs)
      exact Or.inr ⟨start, name, hf, h0, hres, rfl, rfl⟩

/-- A directory handle is the address of its slot. -/
theorem id_handle (a : Nat) : id a = 0 ∨ id a = a := Or.inr rfl

theorem TableOk.openFile (h : s.TableOk task) {cwd file : List UInt8}
    (hn : Named m ar (.openFile cwd file)) (hx : s'.phys.exhausted = false)
    (hs : s.openFile m ar task cwd file = some (r, s')) :
    s'.TableOk task ∧ Contract m ar s task (.openFile cwd file) r s' := by
  obtain ⟨⟨rfl, rfl⟩, hnone⟩ | ⟨start, name, -, h0, hres, rfl, rfl⟩ := openFile_cases hs
  · exact ⟨h, Or.inr ⟨rfl, fun _ => rfl, Or.inl hnone⟩⟩
  · have hname : name ≠ [] := fun hc => h0 (hn start (hc ▸ hres))
    obtain ⟨hok, hcase⟩ := h.opened (fun _ => Or.inl rfl) hname hx
    refine ⟨hok, ?_⟩
    rcases hcase with ⟨n, a, hr, -, -, ho⟩ | ⟨hr, hsame, hall⟩
    · exact Or.inl ⟨n, by rw [hr]; rfl, ho⟩
    · exact Or.inr ⟨by rw [hr]; rfl, hsame, Or.inr hall⟩

theorem TableOk.openDirectory (h : s.TableOk task) {cwd dir : List UInt8} {a : Nat}
    (hn : Named m ar (.openDirectory cwd dir)) (hx : s'.phys.exhausted = false)
    (hs : s.openDirectory m ar task cwd dir = some (a, s')) :
    s'.TableOk task ∧ Contract m ar s task (.openDirectory cwd dir) a s' := by
  obtain ⟨⟨rfl, rfl⟩, hnone⟩ | ⟨start, name, -, h0, hres, rfl, rfl⟩ := openDirectory_cases hs
  · exact ⟨h, Or.inr ⟨rfl, fun _ => rfl, Or.inl hnone⟩⟩
  · have hname : name ≠ [] := fun hc => h0 (hn start (hc ▸ hres))
    obtain ⟨hok, hcase⟩ := h.opened id_handle hname hx
    refine ⟨hok, ?_⟩
    rcases hcase with ⟨n, a, hr, ha, ha0, ho⟩ | ⟨hr, hsame, hall⟩
    · refine Or.inl ⟨n, ?_, ?_, ho⟩
      · rw [hr, ha]
        rfl
      · rw [hr]
        exact Int.natCast_ne_zero.mpr ha0
    · exact Or.inr ⟨by rw [hr]; rfl, hsame, Or.inr hall⟩

theorem TableOk.readFile (h : s.TableOk task) {fd count : Int} {bytes : List UInt8}
    (hs : s.readFile m task fd count = some (bytes, r, s')) :
    s'.TableOk task ∧ Contract m ar s task (.readFile fd count) r s' := by
  -- on the error paths nothing happens
  have hnone : s' = s → s'.TableOk task ∧ Contract m ar s task (.readFile fd count) r s' := by
    rintro rfl
    exact ⟨h, fun _ => ⟨rfl, rfl, fun _ => rfl⟩⟩
  unfold Files.readFile at hs
  split at hs
  · exact hnone (Prod.mk.inj (Prod.mk.inj (Option.some.inj hs)).2).2.symm
  · split at hs
    · exact hnone (Prod.mk.inj (Prod.mk.inj (Option.some.inj hs)).2).2.symm
    · simp only [Option.bind_eq_bind] at hs
      obtain ⟨a, ha, hs⟩ := Option.bind_eq_some_iff.mp hs
      split at hs
      · exact hnone (Prod.mk.inj (Prod.mk.inj (Option.some.inj hs)).2).2.symm
      · next ha0 =>
        obtain ⟨-, hptr, rfl⟩ := slotAddr_eq_of_getFdAddress ha ha0
        have hfd : s.fds (s.slotAddr task fd.toNat) = s.slot task fd.toNat :=
          (slot_of_pointer rfl hptr).symm
        split at hs
        · obtain rfl := (Prod.mk.inj (Prod.mk.inj (Option.some.inj hs)).2).2
          obtain ⟨hok, hslot⟩ := h.setFd hptr (d := { s.fds (s.slotAddr task fd.toNat) with
            offset := (s.fds (s.slotAddr task fd.toNat)).offset +
              (memread m (s.fds (s.slotAddr task fd.toNat)).offset count.toNat).length })
            (by rw [hfd]; exact h.handles _)
          refine ⟨hok, fun k => ?_⟩
          rw [hslot]
          by_cases hk : k = fd.toNat
          · rw [if_pos hk, hfd, hk]
            exact ⟨rfl, rfl, fun hne => absurd (by omega) hne⟩
          · rw [if_neg hk]
            exact ⟨rfl, rfl, fun _ => rfl⟩
        · exact hnone (Prod.mk.inj (Prod.mk.inj (Option.some.inj hs)).2).2.symm

theorem TableOk.closeFile (h : s.TableOk task) {fd : Int}
    (hs : s.closeFile task fd = some (r, s')) :
    s'.TableOk task ∧ Contract m ar s task (.closeFile fd) r s' := by
  unfold Files.closeFile at hs
  split at hs
  · obtain ⟨-, rfl⟩ := Prod.mk.inj (Option.some.inj hs)
    exact ⟨h, fun k => ⟨fun hk => by omega, fun _ => rfl⟩⟩
  · simp only [Option.bind_eq_bind] at hs
    obtain ⟨a, ha, hs⟩ := Option.bind_eq_some_iff.mp hs
    split at hs
    · next ha0 =>
      obtain ⟨-, rfl⟩ := Prod.mk.inj (Option.some.inj hs)
      refine ⟨h, fun k => ⟨fun hk => ?_, fun _ => rfl⟩⟩
      -- the page of the descriptor is not there
      obtain rfl : k = fd.toNat := by omega
      rw [IsOpen, slot, if_pos (pointer_eq_zero_of_getFdAddress (ha0 ▸ ha))]
      exact fun hc => hc rfl
    · next ha0 =>
      obtain ⟨-, rfl⟩ := Prod.mk.inj (Option.some.inj hs)
      obtain ⟨-, hptr, rfl⟩ := slotAddr_eq_of_getFdAddress ha ha0
      obtain ⟨hok, hclosed, hothers⟩ := h.clearName hptr
      refine ⟨hok, fun k => ⟨fun hk => ?_, fun hk => hothers k (by omega)⟩⟩
      obtain rfl : k = fd.toNat := by omega
      exact hclosed

/-- A slot with a handle has a page, and the handle is its address. -/
theorem TableOk.slot_of_dirp (h : s.TableOk task) {dirp k : Nat} (hd : dirp ≠ 0)
    (hk : (s.slot task k).dDirp = dirp) :
    s.pointer task (k / 5) ≠ 0 ∧ s.slotAddr task k = dirp := by
  constructor
  · intro h0
    rw [slot, if_pos h0] at hk
    exact hd hk.symm
  · rcases h.handles k with hz | hz
    · exact absurd (hk.symm.trans hz) hd
    · exact hz.symm.trans hk

theorem TableOk.closeDir (h : s.TableOk task) {dirp : Nat}
    (hs : s.closeDir task dirp = some (r, s')) :
    s'.TableOk task ∧ Contract m ar s task (.closeDir dirp) r s' := by
  unfold Files.closeDir at hs
  split at hs
  · next hd =>
    obtain ⟨-, rfl⟩ := Prod.mk.inj (Option.some.inj hs)
    exact ⟨h, fun k => ⟨fun _ _ hne => absurd hd hne, fun _ => rfl⟩⟩
  · next hd =>
    cases hfd : s.getFd task dirp with
    | none =>
      rw [hfd] at hs
      obtain ⟨-, rfl⟩ := Prod.mk.inj (Option.some.inj hs)
      refine ⟨h, fun k => ⟨fun h2 hlt _ hk => ?_, fun _ => rfl⟩⟩
      -- `get_fd` would have found an open slot
      obtain ⟨hptr, haddr⟩ := h.slot_of_dirp hd hk
      rw [(h.getFd_eq_some hd).mpr ⟨h2, hlt, hptr, haddr, hk⟩] at hfd
      cases hfd
    | some n =>
      obtain ⟨-, hlt, hptr, rfl, -⟩ := (h.getFd_eq_some hd).mp hfd
      have ha : s.getFdAddress task n = some (s.slotAddr task n) := by
        rw [getFdAddress, if_pos (by omega), if_pos hptr]
        rfl
      rw [hfd] at hs
      simp only [ha, Option.bind_eq_bind, Option.bind_some, if_neg hd, Option.some.injEq,
        Prod.mk.injEq] at hs
      obtain ⟨-, rfl⟩ := hs
      obtain ⟨hok, hclosed, hothers⟩ := h.clearName hptr
      refine ⟨hok, fun k => ⟨fun _ _ _ hk => ?_, fun hk => hothers k fun hc => hk (by rw [hc])⟩⟩
      -- two slots with the same address are the same
      obtain ⟨hkptr, haddr⟩ := h.slot_of_dirp hd hk
      rw [h.slotAddr_inj hkptr hptr haddr]
      exact hclosed

/-- **Every call keeps its contract**, and the table well-formed. -/
theorem TableOk.call (h : s.TableOk task) (hn : Named m ar c) (hx : s'.phys.exhausted = false)
    (hs : s.call m ar task c = some (r, s')) :
    s'.TableOk task ∧ Contract m ar s task c r s' := by
  cases c with
  | openFile cwd file => exact h.openFile hn hx hs
  | openDirectory cwd dir =>
    obtain ⟨⟨a, t⟩, ha, heq⟩ := Option.map_eq_some_iff.mp hs
    obtain ⟨rfl, rfl⟩ := Prod.mk.inj heq
    exact h.openDirectory hn hx ha
  | readFile fd count =>
    obtain ⟨⟨bytes, t⟩, ht, heq⟩ := Option.map_eq_some_iff.mp hs
    obtain rfl : t = (r, s') := heq
    exact h.readFile ht
  | closeFile fd => exact h.closeFile hs
  | closeDir dirp => exact h.closeDir hs

/-- **The descriptor table is correct** in every run of calls whose paths do not lead to an empty
name. -/
theorem descriptors_correct (h : s.TableOk task) {cs : List Call}
    (hr : Run (fun s c => (s.call m ar task c).map Prod.snd)
      (fun s c => Named m ar c ∧ s.Enough m ar task c) s cs s')
    (hn : Named m ar c) (hx : s'.Enough m ar task c)
    (hs : s'.call m ar task c = some (r, s'')) :
    Contract m ar s' task c r s'' := by
  have hok : s'.TableOk task := hr.invariant (I := fun s => s.TableOk task) h
    fun t e t' ht hok hstep => by
      obtain ⟨⟨q, t''⟩, hcall, rfl⟩ := Option.map_eq_some_iff.mp hstep
      exact (ht.call hok.1 (hok.2 q t'' hcall) hcall).1
  exact (hok.call hn (hx r s'' hs) hs).2

/-! ### Runs on an empty archive -/

/-- An archive without files: two blocks of zero bytes. -/
def emptyArchive : Archive := ⟨kernbase + 0x200000, kernbase + 0x200400⟩

/-- The record of a task that has just been made: its table has one page, `page`. -/
def newTable (page : Nat) : Task :=
  { Task.zeroed with fdPointers := (kernbase + page) :: List.replicate 19 0, fdCount := 5 }

theorem pointer_single (h : (s.phys.tasks task).fdPointers = p :: List.replicate 19 0) (i : Nat) :
    s.pointer task i = if i = 0 then p else 0 := by
  rw [Files.pointer, h]
  cases i with
  | zero => rfl
  | succ i =>
    simp only [List.getD_eq_getElem?_getD, List.getElem?_cons_succ, List.getElem?_replicate]
    split <;> rfl

theorem newTable_pointer {page : Nat} (ht : s.phys.tasks task = newTable page) (i : Nat) :
    s.pointer task i = if i = 0 then kernbase + page else 0 :=
  pointer_single (by rw [ht]; rfl) i

/-- **A table with one empty page is well-formed.** -/
theorem tableOk_single (hrec : s.PageAt task) (hpage : s.PageAt p) (hne : p ≠ task)
    (hpointers : (s.phys.tasks task).fdPointers = p :: List.replicate 19 0)
    (hcount : (s.phys.tasks task).fdCount = 5)
    (hfds : ∀ i < 4096, s.fds (p + i) = .zeroed) : s.TableOk task := by
  have h0 := pageAt_ne_zero hpage
  have hptr := pointer_single hpointers
  have hzero : ∀ i, s.pointer task i ≠ 0 → i = 0 := fun i hi => by
    by_contra hi0
    exact hi (by rw [hptr, if_neg hi0])
  refine ⟨hrec, by rw [hpointers]; rfl, fun i hi => ?_, fun i j hi hij => ?_,
    ⟨1, by decide, hcount, fun i _ => ?_⟩, fun n => Or.inl ?_⟩
  · rw [hptr, if_pos (hzero i hi)]
    exact ⟨hpage, hne⟩
  · rw [hzero i hi, hzero j (hij ▸ hi)]
  · rw [hptr]
    split
    · next hi => exact ⟨fun _ => by omega, fun _ => h0⟩
    · next hi => exact ⟨fun hc => absurd rfl hc, fun hc => absurd (by omega) hi⟩
  · by_cases hn : s.pointer task (n / 5) = 0
    · rw [slot, if_pos hn]
      rfl
    · have hp : s.pointer task (n / 5) = p := by rw [hptr, if_pos (hzero _ hn)]
      rw [slot_of_pointer hp h0, hfds _ (by unfold fdSize; omega)]
      rfl

/-- **A new table is well-formed.** -/
theorem tableOk_new {page : Nat} (ht : s.phys.tasks task = newTable page) (hrec : s.PageAt task)
    (hpage : s.PageAt (kernbase + page)) (hne : kernbase + page ≠ task)
    (hfds : ∀ a, s.fds a = .zeroed) : s.TableOk task :=
  tableOk_single hrec hpage hne (by rw [ht]; rfl) (by rw [ht]; rfl) fun _ _ => hfds _

/-- A task in page `0x3000` that has just been made. -/
def newFiles : Files where
  phys := ⟨fun _ => 0, fun _ => 0, false,
    fun a => if a = kernbase + 0x3000 then newTable 0x7000 else .zeroed⟩
  fds := fun _ => .zeroed

theorem newFiles_ok : newFiles.TableOk (kernbase + 0x3000) := by
  have hused : ∀ n, ¬ IsFree newFiles.phys.availFrames n := fun n hc => by
    simp [newFiles, IsFree] at hc
  have ht : newFiles.phys.tasks (kernbase + 0x3000) = newTable 0x7000 := by
    simp only [newFiles, if_true]
  exact tableOk_new ht ⟨0x3000, rfl, by decide, by decide, hused _⟩
    ⟨0x7000, rfl, by decide, by decide, hused _⟩ (by decide) fun _ => rfl

/-- Opening the root directory as a file. -/
theorem descriptors_correct_root : ∃ s', newFiles.call (fun _ => 0) emptyArchive
    (kernbase + 0x3000) (.openFile [] [slash]) = some (3, s') ∧
      Contract (fun _ => 0) emptyArchive newFiles (kernbase + 0x3000) (.openFile [] [slash]) 3 s' := by
  have hres : resolveFile (fun _ => 0) emptyArchive [] [slash] =
      some (kernbase + 0x200000, [slash]) := by rfl
  obtain ⟨s', hs', hx⟩ : ∃ s', newFiles.call (fun _ => 0) emptyArchive (kernbase + 0x3000)
      (.openFile [] [slash]) = some (3, s') ∧ s'.phys.exhausted = false := ⟨_, rfl, rfl⟩
  refine ⟨s', hs', descriptors_correct newFiles_ok (.nil _) (fun start hc => ?_)
    (fun q t ht => ?_) hs'⟩
  · rw [hres] at hc
    cases hc
  · obtain ⟨rfl, rfl⟩ := Prod.mk.inj (Option.some.inj (hs'.symm.trans ht))
    exact hx

/-- **A descriptor is handed out twice.** `/.` is the root, whose name comes out empty; an empty
name is found at the end of the archive. -/
theorem open_twice : ∃ s' s'', newFiles.call (fun _ => 0) emptyArchive (kernbase + 0x3000)
      (.openFile [] [slash, dot]) = some (3, s') ∧
    s'.call (fun _ => 0) emptyArchive (kernbase + 0x3000) (.openFile [] [slash, dot]) =
      some (3, s'') :=
  ⟨_, _, rfl, rfl⟩

end Files

end Sbunix
