import Sbunix.ForkPages
import Sbunix.Heap
import Sbunix.Pids

/-!
# The heap of a child

`copyVMA` gives the child a list of its own, record by record, and enumerates the fields by hand.
`isNextFreed` is missing from the enumeration, and `malloc` decides by it.

* `copyVMA_nodes` — the nodes are pages that were free, and have the other fields;
* `returned_congr` — `malloc` and `free` depend on the fields and not on the nodes;
* `fork_copies_heap_iff` — the child has the heap of its parent unless a record is marked.
-/

namespace Sbunix

variable {image : Nat} {Γ : Nat → Use} {L D G : List Nat} {k k' : Kernel} {s : Phys}
  {u : UserRegs} {pid : Int} {mmap : List Vma}

/-! ### The same heap -/

/-- The fields that `malloc` and `free` are about. -/
structure SameRecord (v w : Vma) : Prop where
  vStart : v.vStart = w.vStart
  vEnd : v.vEnd = w.vEnd
  mmsz : v.mmsz = w.mmsz
  vFlags : v.vFlags = w.vFlags
  growsDown : v.growsDown = w.growsDown
  vFile : v.vFile = w.vFile
  vOffset : v.vOffset = w.vOffset
  isNextFreed : v.isNextFreed = w.isNextFreed

/-- A call of a program. -/
inductive HeapRequest
  | malloc (size : Nat)
  | free (ptr : Nat)

/-- What the call returns, and the list after it; a new record has the given address and page
number. -/
def HeapRequest.run (node : Nat × Nat) (l : List Vma) : HeapRequest → Option Nat × List Vma
  | malloc size => let r := Sbunix.malloc size node.1 node.2 l; (some r.1, r.2)
  | free ptr => (none, Sbunix.free ptr l)

/-- What a sequence of calls returns, where the `i`-th call from the end gets the node
`nodes i`. -/
def returned (nodes : Nat → Nat × Nat) : List HeapRequest → List Vma → List (Option Nat)
  | [], _ => []
  | c :: cs, l => (c.run (nodes cs.length) l).1 :: returned nodes cs (c.run (nodes cs.length) l).2

/-- **The task at `child` has the heap of its parent**: the list is the same record by record, its
records are different pages that were free and have been taken, and the parent has kept its list.
Whatever the two call from now on, they are given the same addresses. -/
structure HeapCopied (k k' : Kernel) (child : Nat) : Prop where
  records : List.Forall₂ SameRecord k.running.mmap (k'.phys.tasks child).mmap
  fresh : ∀ w ∈ (k'.phys.tasks child).mmap, ∃ f, w.addr = kernbase + f ∧ f % 4096 = 0 ∧
    f / 4096 < maxFrames ∧ IsFree k.phys.availFrames (f / 4096) ∧
    ¬ IsFree k'.phys.availFrames (f / 4096)
  distinct : ((k'.phys.tasks child).mmap.map Vma.addr).Nodup
  unshared : ∀ v ∈ k.running.mmap, v.InPage k.phys.availFrames →
    ∀ w ∈ (k'.phys.tasks child).mmap, w.addr ≠ v.addr
  parent : (k'.phys.tasks k.runningThread).mmap = k.running.mmap
  calls : ∀ nodes nodes' cs, returned nodes cs k.running.mmap =
    returned nodes' cs (k'.phys.tasks child).mmap

/-- A page that was free is none of an allocated record. -/
theorem Vma.InPage.addr_ne {availFrames : Bitmap} {v w : Vma} {f : Nat}
    (h : v.InPage availFrames) (hw : w.addr = kernbase + f) (hf : IsFree availFrames (f / 4096)) :
    w.addr ≠ v.addr := by
  obtain ⟨g, hg, -, -, hused⟩ := h
  intro he
  have hgf : kernbase + f = kernbase + g := hw.symm.trans (he.trans hg)
  rw [Nat.add_left_cancel hgf] at hf
  exact hused hf

/-! ### malloc and free -/

/-- Two such records differ in the node and the page number only. -/
theorem SameRecord.eq {v w : Vma} (h : SameRecord v w) :
    w = { v with addr := w.addr, pageNumber := w.pageNumber } := by
  obtain ⟨h1, h2, h3, h4, h5, h6, h7, h8⟩ := h
  rw [h1, h2, h3, h4, h5, h6, h7, h8]

/-- The search of `malloc` does not look at the nodes. -/
theorem mallocScan_congr {size : Nat} {temp temp' : Vma} {rest rest' : List Vma}
    (h : SameRecord temp temp') (hr : List.Forall₂ SameRecord rest rest') (fin : Nat) :
    List.Forall₂ SameRecord (mallocScan size temp rest fin).1 (mallocScan size temp' rest' fin).1 ∧
      (mallocScan size temp rest fin).2 = (mallocScan size temp' rest' fin).2 := by
  induction hr generalizing temp temp' fin with
  | nil => exact ⟨.cons h .nil, rfl⟩
  | @cons next next' rest rest' hn _ ih =>
    have hih := fun fin => ih hn fin
    rw [h.eq, hn.eq] at *
    simp only [mallocScan]
    split
    · exact ⟨.cons ⟨rfl, rfl, rfl, rfl, rfl, rfl, rfl, rfl⟩ .nil, rfl⟩
    · obtain ⟨hl, he⟩ := hih _
      exact ⟨.cons ⟨rfl, rfl, rfl, rfl, rfl, rfl, rfl, rfl⟩ hl, he⟩

theorem malloc_congr {size : Nat} {node node' : Nat × Nat} {l l' : List Vma}
    (h : List.Forall₂ SameRecord l l') :
    (malloc size node.1 node.2 l).1 = (malloc size node'.1 node'.2 l').1 ∧
      List.Forall₂ SameRecord (malloc size node.1 node.2 l).2
        (malloc size node'.1 node'.2 l').2 := by
  cases h with
  | nil => exact ⟨rfl, .cons ⟨rfl, rfl, rfl, rfl, rfl, rfl, rfl, rfl⟩ .nil⟩
  | @cons temp temp' rest rest' ht hr =>
    obtain ⟨hl, he⟩ := @mallocScan_congr size _ _ _ _ ht hr 0
    simp only [malloc]
    rw [he]
    exact ⟨rfl, List.rel_append hl (.cons ⟨rfl, rfl, rfl, rfl, rfl, rfl, rfl, rfl⟩ .nil)⟩

theorem free_congr {l l' : List Vma} (h : List.Forall₂ SameRecord l l') (ptr : Nat) :
    List.Forall₂ SameRecord (free ptr l) (free ptr l') := by
  induction h with
  | nil => exact .nil
  | @cons v v' rest rest' hv hr ih =>
    cases hr with
    | nil => exact .cons hv .nil
    | @cons next next' rest rest' hn hr =>
      simp only [free]
      rw [hn.vStart]
      split
      · exact .cons ⟨hv.vStart, hv.vEnd, hv.mmsz, hv.vFlags, hv.growsDown, hv.vFile, hv.vOffset,
          rfl⟩ hr
      · exact .cons hv ih

theorem HeapRequest.run_congr {node node' : Nat × Nat} {l l' : List Vma}
    (h : List.Forall₂ SameRecord l l') (c : HeapRequest) :
    (c.run node l).1 = (c.run node' l').1 ∧
      List.Forall₂ SameRecord (c.run node l).2 (c.run node' l').2 := by
  cases c with
  | malloc size =>
    obtain ⟨hr, hl⟩ := @malloc_congr size node node' _ _ h
    exact ⟨congrArg some hr, hl⟩
  | free ptr => exact ⟨rfl, free_congr h ptr⟩

/-- **Equal heaps behave alike**: they return the same addresses from now on. -/
theorem returned_congr (nodes nodes' : Nat → Nat × Nat) (cs : List HeapRequest) {l l' : List Vma}
    (h : List.Forall₂ SameRecord l l') : returned nodes cs l = returned nodes' cs l' := by
  induction cs generalizing l l' with
  | nil => rfl
  | cons c cs ih =>
    obtain ⟨hr, hl⟩ := @HeapRequest.run_congr (nodes cs.length) (nodes' cs.length) _ _ h c
    rw [returned, returned, hr, ih hl]

/-! ### The copy -/

/-- What `copyVMA` makes of a record. -/
def IsCopy (v w : Vma) : Prop := w = { v with addr := w.addr, isNextFreed := 0 }

theorem copyVMA_copies (s : Phys) (mmap : List Vma) :
    List.Forall₂ IsCopy mmap (s.copyVMA mmap).1 := by
  induction mmap generalizing s with
  | nil => exact .nil
  | cons vma rest ih => exact .cons rfl (ih _)

/-- **The nodes** are different pages, free before and taken afterwards; no page becomes free. -/
theorem copyVMA_nodes (hx : (s.copyVMA mmap).2.exhausted = false) :
    (∀ w ∈ (s.copyVMA mmap).1, ∃ f, w.addr = kernbase + f ∧ f % 4096 = 0 ∧ f / 4096 < maxFrames ∧
      IsFree s.availFrames (f / 4096) ∧ ¬ IsFree (s.copyVMA mmap).2.availFrames (f / 4096)) ∧
    ((s.copyVMA mmap).1.map Vma.addr).Nodup ∧
    ∀ n, IsFree (s.copyVMA mmap).2.availFrames n → IsFree s.availFrames n := by
  induction mmap generalizing s with
  | nil => exact ⟨fun w hw => absurd hw List.not_mem_nil, List.nodup_nil, fun n hn => hn⟩
  | cons vma rest ih =>
    simp only [Phys.copyVMA] at hx ⊢
    have ht := (kmalloc_taken (copyVMA_alive hx)).1
    obtain ⟨hfresh, hnd, hmono⟩ := ih hx
    -- the node is not free for the rest
    have hself : ¬ IsFree s.kmalloc.2.availFrames (s.kmalloc.1 / 4096) := fun hf =>
      ((ht.bits _).mp hf).1 rfl
    refine ⟨fun w hw => ?_, ?_, fun n hn => ((ht.bits n).mp (hmono n hn)).2⟩
    · rcases List.mem_cons.mp hw with rfl | hw
      · exact ⟨s.kmalloc.1, rfl, ht.aligned, ht.lt, ht.free, fun hf => hself (hmono _ hf)⟩
      · obtain ⟨f, ha, hal, hlt, hfree, htaken⟩ := hfresh w hw
        exact ⟨f, ha, hal, hlt, ((ht.bits _).mp hfree).2, htaken⟩
    · rw [List.map_cons, List.nodup_cons]
      refine ⟨fun hm => ?_, hnd⟩
      obtain ⟨w, hw, haddr⟩ := List.mem_map.mp hm
      obtain ⟨f, ha, -, -, hfree, -⟩ := hfresh w hw
      rw [ha] at haddr
      have hf : f = s.kmalloc.1 := Nat.add_left_cancel haddr
      rw [hf] at hfree
      exact hself hfree

/-- A copy is the same record if the original is not marked. -/
theorem IsCopy.same_iff {v w : Vma} (h : IsCopy v w) : SameRecord v w ↔ v.isNextFreed = 0 := by
  constructor
  · intro hs
    rw [hs.isNextFreed, h]
  · intro hv
    rw [h]
    exact ⟨rfl, rfl, rfl, rfl, rfl, rfl, rfl, hv⟩

theorem forall₂_same_iff {l l' : List Vma} (h : List.Forall₂ IsCopy l l') :
    List.Forall₂ SameRecord l l' ↔ ∀ v ∈ l, v.isNextFreed = 0 := by
  induction h with
  | nil => simp
  | cons hv _ ih => rw [List.forall₂_cons, ih, hv.same_iff, List.forall_mem_cons]

/-- **`fork`** gives the child a copy of the list and leaves the list of the parent alone. -/
theorem Inv.fork_nodes (h : Inv image Γ L D G k) (hs : k.fork u = some (pid, k'))
    (hx : k'.phys.exhausted = false) :
    ∃ stack : Phys,
      (k'.phys.tasks (kernbase + k.phys.kmalloc.1)).mmap = (stack.copyVMA k.running.mmap).1 ∧
      (stack.copyVMA k.running.mmap).2.exhausted = false ∧
      (∀ n, IsFree stack.availFrames n → IsFree k.phys.availFrames n) ∧
      k'.phys.availFrames = (stack.copyVMA k.running.mmap).2.availFrames ∧
      (k'.phys.tasks k.runningThread).mmap = k.running.mmap := by
  unfold Kernel.fork at hs
  simp only [Option.bind_eq_bind] at hs
  obtain ⟨k₁, hk₁, hs⟩ := Option.bind_eq_some_iff.mp hs
  obtain ⟨s, hmake, hs⟩ := Option.bind_eq_some_iff.mp hs
  simp only [Option.pure_def, Option.some.injEq, Prod.mk.injEq] at hs
  obtain ⟨-, rfl⟩ := hs
  have hx₁ : k₁.phys.exhausted = false := by
    rw [makeParentCr3asReadOnly_exhausted hmake] at hx
    exact hx
  obtain ⟨root, s₁, Γ₁, s₂, Γ₂, Γ', g, hc, -, -, stack, hrec, hex, hfree, havail⟩ :=
    h.childNodes hk₁ hx₁
  obtain ⟨-, htasks, -⟩ := h.newTask (h.childTask hc)
  -- after `createChildTask` only links are written
  have hlinks : ∀ a, (s.tasks a).mmap = (k₁.phys.tasks a).mmap := by
    intro a
    have hnext : ∀ (t : Phys) (b c : Nat), ((t.setNext b c).tasks a).mmap = (t.tasks a).mmap := by
      intro t b c
      simp only [Phys.setNext, Phys.setTask, Function.update_apply]
      split
      · next hab => rw [hab]
      · rfl
    rw [makeParentCr3asReadOnly_tasks hmake, Kernel.addToQueue, hnext, hnext]
  refine ⟨stack, ?_, hex, hfree, ?_, ?_⟩
  · rw [hlinks, hrec]
    rfl
  · exact (makeParentCr3asReadOnly_availFrames hmake).trans havail
  · rw [hlinks, htasks k.runningThread (List.mem_append_left D h.running_mem)]
    rfl

/-- **The heap of a child** is that of its parent exactly where no record of the parent is marked
as followed by a gap. -/
theorem fork_copies_heap_iff (h : Inv image Γ L D G k) (hs : k.fork u = some (pid, k'))
    (hx : k'.phys.exhausted = false) :
    HeapCopied k k' (kernbase + k.phys.kmalloc.1) ↔ ∀ v ∈ k.running.mmap, v.isNextFreed = 0 := by
  obtain ⟨stack, hmmap, hex, hfree, havail, hparent⟩ := h.fork_nodes hs hx
  have hcopies := copyVMA_copies stack k.running.mmap
  constructor
  · intro hc
    have hrec := hc.records
    rw [hmmap] at hrec
    exact (forall₂_same_iff hcopies).mp hrec
  · intro hv
    obtain ⟨hfresh, hnd, -⟩ := copyVMA_nodes hex
    have hrec := (forall₂_same_iff hcopies).mpr hv
    refine ⟨by rwa [hmmap], fun w hw => ?_, by rwa [hmmap], fun v _ hpage w hw => ?_, hparent,
      fun nodes nodes' cs => ?_⟩
    · rw [hmmap] at hw
      obtain ⟨f, ha, hal, hlt, hf, ht⟩ := hfresh w hw
      exact ⟨f, ha, hal, hlt, hfree _ hf, by rwa [havail]⟩
    · rw [hmmap] at hw
      obtain ⟨f, ha, -, -, hf, -⟩ := hfresh w hw
      exact hpage.addr_ne ha (hfree _ hf)
    · rw [hmmap]
      exact returned_congr nodes nodes' cs hrec

/-- The shell with its one VMA gives its child the same heap. -/
theorem fork_copies_heap_one : ∃ pid k',
    (shellAt [pageVma 0x400000] 0x400000).fork entryRegs = some (pid, k') ∧
      HeapCopied (shellAt [pageVma 0x400000] 0x400000) k'
        (kernbase + (shellAt [pageVma 0x400000] 0x400000).phys.kmalloc.1) := by
  have hm : UserPages [pageVma 0x400000] := userPages_pageVma (by decide)
  have hvp := vmaPages_pageVma (v := 0x400000) (by decide)
  obtain ⟨pid, k', hs, hx⟩ := shell_fork hm hvp (by simp [pageVma, stackTop]) (by simp)
  obtain ⟨Γ, hI, -, -, -, hrun⟩ := shellAt_inv hm (show pml4Index 0x400000 < 511 by decide)
  refine ⟨pid, k', hs, (fork_copies_heap_iff hI hs hx).mpr fun v hv => ?_⟩
  rw [hrun] at hv
  rw [List.mem_singleton.mp hv]
  rfl

/-- The same VMA, after the one behind it has been freed. -/
def markedVma : Vma := { pageVma 0x400000 with isNextFreed := 1 }

/-- **The mark is lost.** -/
theorem fork_drops_mark : ∃ pid k',
    (shellAt [markedVma] 0x400000).fork entryRegs = some (pid, k') ∧
      ¬ HeapCopied (shellAt [markedVma] 0x400000) k'
        (kernbase + (shellAt [markedVma] 0x400000).phys.kmalloc.1) := by
  have hm : UserPages [markedVma] :=
    (userPages_pageVma (v := 0x400000) (by decide)).congr rfl
  have hvp : vmaPages [markedVma] = some [(markedVma, 0x400000)] := by
    have hstarts := pageStarts_page (v := 0x400000) (by decide)
    simp only [vmaPages, markedVma, pageVma, hstarts, Option.bind_eq_bind, Option.bind_some,
      Option.pure_def, List.map_cons, List.map_nil, List.append_nil]
  obtain ⟨pid, k', hs, hx⟩ := shell_fork hm hvp (by simp [markedVma, pageVma, stackTop]) (by simp)
  obtain ⟨Γ, hI, -, -, -, hrun⟩ := shellAt_inv hm (show pml4Index 0x400000 < 511 by decide)
  refine ⟨pid, k', hs, fun hc => ?_⟩
  obtain ⟨stack, hmmap, -⟩ := hI.fork_nodes hs hx
  have hrec := hc.records
  rw [hmmap, hrun] at hrec
  have hmark := (forall₂_same_iff (copyVMA_copies stack [markedVma])).mp hrec markedVma
    (List.mem_singleton_self _)
  exact absurd hmark (by decide)

end Sbunix
