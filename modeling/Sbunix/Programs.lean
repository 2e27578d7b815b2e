import Sbunix.Environment
import Sbunix.Heap
import Sbunix.ReadFile
import Sbunix.StatusLine

/-!
# Programs

`bin/cat` over the system calls that it makes. Its buffer is a new allocation, which is not there
until it is stored to: `readFile` faults on it, and so does `kprintf` behind the last byte that it
prints. `_hndlr_isr14` serves a store of the kernel only on the page on which a VMA starts, and no
load; where it does not serve one the machine comes to a stop.

* `Process.store_in_page`, `Process.store_over_page` — stores of a system call;
* `cat_prints_iff` — `cat` prints a file exactly if the file ends on the page on which the first
  buffer starts.
-/

namespace Sbunix

open ByteMem

/-! ### The code -/

/-- A process, as the system calls that it makes see it. -/
structure Process where
  files : Files
  memory : UserMem
  mmap : List Vma

namespace Process

/-- The page at `a` before a store of the kernel. A fault that is not served never returns. -/
def touch (p : Process) (a : Nat) : Option Process :=
  if (p.memory a).isSome then some p
  else if p.mmap.any fun vma => vma.vStart &&& frame == a &&& frame then
    some { p with memory := mapZeros p.memory (a &&& frame) }
  else none

/-- Stores of the kernel, one after the other. -/
def store : Process → Nat → List UInt8 → Option Process
  | p, _, [] => some p
  | p, a, b :: bs => (p.touch a).bind fun p =>
    store { p with memory := Function.update p.memory a (some b) } (a + 1) bs

/-- `malloc`; `node` is the page of the new VMA, and its number. -/
def malloc (p : Process) (size : Nat) (node : Nat × Nat) : Nat × Process :=
  let r := Sbunix.malloc size node.1 node.2 p.mmap
  (r.1, { p with mmap := r.2 })

section Source

variable (m : Mem) (task : Nat)

/-- `read`, of a descriptor that is not the terminal: `memread` puts a NUL behind what it copies, if
there is room. -/
def read (p : Process) (fd : Int) (buf : Nat) (count : Int) : Option (Int × Process) := do
  let (bytes, val, files) ← p.files.readFile m task fd count
  if val < 0 then some (val, { p with files := files })
  else
    let stored := if (bytes.length : Int) < count then bytes ++ [0] else bytes
    (store { p with files := files } buf stored).map fun p => (val, p)

/-- `write` to descriptor 1: what `kprintf("%s", buf)` prints. It does not look at the count. -/
def write (p : Process) (buf : Nat) : Option (List UInt8) := cString p.memory walkFuel buf

end Source

end Process

/-- The size of the buffer of `bin/cat`. -/
def catSize : Nat := 4096

section Cat

variable (m : Mem) (ar : Archive) (task : Nat) (node : List Vma → Nat × Nat)

/-- The loop of `main` in `bin/cat`: what it prints. -/
def catLoop (fd : Int) : Nat → Process → Option (List UInt8 × Process)
  | 0, _ => none
  | fuel + 1, p =>
    let (cat, p) := p.malloc catSize (node p.mmap)
    (p.read m task fd cat catSize).bind fun (lCou, p) =>
      (p.write cat).bind fun printed =>
        if lCou = 0 then some (printed, p)
        else (catLoop fd fuel p).map fun r => (printed ++ r.1, r.2)

/-- `main` of `bin/cat`, in the working directory `cwd`: what it prints. -/
def cat (fuel : Nat) (cwd : List UInt8) (p : Process) :
    List (List UInt8) → Option (List UInt8 × Process)
  | _ :: file :: _ => do
    let (fd, files) ← p.files.openFile m ar task cwd file
    let p := { p with files := files }
    if fd = -1 then some (text "cat: " ++ file ++ text " File Not Found\n", p)
    else
      let (printed, p) ← catLoop m task node fd fuel p
      let (_, files) ← p.files.closeFile task fd
      some (printed ++ [0x0A], { p with files := files })
  | _ => some ([], p)

end Cat

/-! ### Stores -/

variable {m : Mem} {ar : Archive} {task : Nat} {node : List Vma → Nat × Nat} {p p' : Process}
  {a b x fin top : Nat} {bs cs : List UInt8} {c : UInt8}

/-- The page of `a` is there. -/
def Process.HasPage (p : Process) (a : Nat) : Prop := ∀ x, x / 4096 = a / 4096 → (p.memory x).isSome

namespace Process

theorem touch_of_isSome (h : (p.memory a).isSome) : p.touch a = some p := by
  rw [touch, if_pos h]

/-- What is stored is what is there, and nothing else changes. -/
def stored (p : Process) (a : Nat) (bs : List UInt8) : Process :=
  { p with memory := fun x => if a ≤ x ∧ x < a + bs.length then bs[x - a]? else p.memory x }

theorem stored_memory (p : Process) (a : Nat) (bs : List UInt8) (x : Nat) :
    (p.stored a bs).memory x =
      if a ≤ x ∧ x < a + bs.length then bs[x - a]? else p.memory x := rfl

theorem stored_nil (p : Process) (a : Nat) : p.stored a [] = p := by
  have hmem : (fun x => if a ≤ x ∧ x < a + ([] : List UInt8).length then ([] : List UInt8)[x - a]?
      else p.memory x) = p.memory := by
    ext1 x
    rw [List.length_nil, if_neg (by omega)]
  rw [stored, hmem]

/-- **Stores on one page.** -/
theorem store_in_page (hpage : p.HasPage a) (hfit : a % 4096 + bs.length ≤ 4096) :
    p.store a bs = some (p.stored a bs) := by
  induction bs generalizing p a with
  | nil => rw [store, stored_nil]
  | cons b bs ih =>
    rw [List.length_cons] at hfit
    rw [store, touch_of_isSome (hpage a rfl), Option.bind_some]
    cases bs with
    | nil =>
      rw [store, stored]
      congr 2
      ext1 x
      by_cases hx : x = a
      · subst hx
        simp
      · rw [Function.update_of_ne hx, List.length_singleton, if_neg (by omega)]
    | cons d bs =>
      rw [List.length_cons] at hfit
      have hpage' : HasPage { p with memory := Function.update p.memory a (some b) } (a + 1) := by
        intro x hx
        dsimp only
        by_cases hxa : x = a
        · rw [hxa, Function.update_self, Option.isSome_some]
        · rw [Function.update_of_ne hxa]
          exact hpage x (by omega)
      rw [ih hpage' (by rw [List.length_cons]; omega), stored, stored]
      congr 2
      ext1 x
      dsimp only
      by_cases hx : x = a
      · subst hx
        rw [if_neg (by omega), Function.update_self, if_pos (by simp)]
        simp
      · rw [Function.update_of_ne hx]
        by_cases hin : a + 1 ≤ x ∧ x < a + 1 + (d :: bs).length
        · rw [if_pos hin, if_pos (by simp only [List.length_cons] at hin ⊢; omega),
            show x - a = x - (a + 1) + 1 by omega, List.getElem?_cons_succ]
        · rw [if_neg hin, if_neg (by simp only [List.length_cons] at hin ⊢; omega)]

theorem store_append (p : Process) (a : Nat) (bs cs : List UInt8) :
    p.store a (bs ++ cs) = (p.store a bs).bind fun p => p.store (a + bs.length) cs := by
  induction bs generalizing p a with
  | nil => rfl
  | cons b bs ih =>
    rw [List.cons_append, store, store]
    cases hp : p.touch a with
    | none => rfl
    | some p' =>
      rw [Option.bind_some, Option.bind_some, ih, List.length_cons, Nat.add_assoc a 1,
        Nat.add_comm 1]

/-- A store to `a` finds its page, or a VMA that starts on it. -/
def Ready (p : Process) (a : Nat) : Prop :=
  p.HasPage a ∨ p.memory a = none ∧ ∃ v ∈ p.mmap, v.vStart < 2 ^ 64 ∧ v.vStart / 4096 = a / 4096

theorem same_page_iff {v a : Nat} (hv : v < 2 ^ 64) (ha : a < 2 ^ 64) :
    v &&& frame = a &&& frame ↔ v / 4096 = a / 4096 := by
  rw [and_frame hv, and_frame ha]
  omega

/-- **A store that stays on the page of its first byte** goes through, and changes no other page. -/
theorem store_spec (hready : p.Ready a) (ha : a < 2 ^ 64) (hfit : a % 4096 + bs.length ≤ 4096)
    (hne : bs ≠ []) :
    ∃ p', p.store a bs = some p' ∧ p'.files = p.files ∧ p'.mmap = p.mmap ∧
      (∀ i < bs.length, p'.memory (a + i) = bs[i]?) ∧
      ∀ x, x / 4096 ≠ a / 4096 → p'.memory x = p.memory x := by
  have hpage : ∀ q : Process, q.HasPage a → q.store a bs = some (q.stored a bs) ∧
      (∀ i < bs.length, (q.stored a bs).memory (a + i) = bs[i]?) ∧
      ∀ x, x / 4096 ≠ a / 4096 → (q.stored a bs).memory x = q.memory x := by
    intro q hq
    refine ⟨store_in_page hq hfit, fun i hi => ?_, fun x hx => ?_⟩
    · rw [stored_memory, if_pos (by omega), Nat.add_sub_cancel_left]
    · rw [stored_memory, if_neg (by omega)]
  rcases hready with hp | ⟨hnone, v, hv, hlt, hsame⟩
  · obtain ⟨hstore, hin, hout⟩ := hpage p hp
    exact ⟨_, hstore, rfl, rfl, hin, hout⟩
  · -- the page is allocated at the first byte
    set q : Process := { p with memory := mapZeros p.memory (a &&& frame) } with hq
    have htouch : p.touch a = some q := by
      rw [touch, hnone, Option.isSome_none, if_neg Bool.false_ne_true, if_pos]
      exact List.any_eq_true.mpr ⟨v, hv, beq_iff_eq.mpr ((same_page_iff hlt ha).mpr hsame)⟩
    have hmem : ∀ x, q.memory x = if x / 4096 = a / 4096 then some 0 else p.memory x := by
      intro x
      rw [hq]
      dsimp only
      rw [mapZeros, and_frame ha]
      by_cases hx : x / 4096 = a / 4096
      · rw [if_pos hx, if_pos (by omega)]
      · rw [if_neg hx, if_neg (by omega)]
    have hhas : q.HasPage a := fun x hx => by rw [hmem, if_pos hx, Option.isSome_some]
    obtain ⟨hstore, hin, hout⟩ := hpage q hhas
    refine ⟨q.stored a bs, ?_, rfl, rfl, hin, fun x hx =>
      (hout x hx).trans (by rw [hmem, if_neg hx])⟩
    obtain ⟨b, bs', rfl⟩ := List.exists_cons_of_ne_nil hne
    rw [← hstore, store, store, htouch, touch_of_isSome (hhas a rfl)]

/-- **A store that goes on to the next page** does not get through where no VMA starts there. -/
theorem store_over_page (hready : p.Ready a) (ha : a + 4096 < 2 ^ 64)
    (hover : 4096 < a % 4096 + bs.length) (hnone : p.memory (4096 * (a / 4096 + 1)) = none)
    (hno : ∀ v ∈ p.mmap, v.vStart < 2 ^ 64 ∧ v.vStart / 4096 ≠ a / 4096 + 1) :
    p.store a bs = none := by
  set k := 4096 - a % 4096 with hk
  have hlen : (bs.take k).length = k := by
    rw [List.length_take]
    omega
  have hne : bs.take k ≠ [] := by
    rw [← List.length_pos_iff, hlen]
    omega
  obtain ⟨p', hstore, -, hmmap, -, hout⟩ := store_spec hready (by omega) (by omega) hne
  have hnext : a + k = 4096 * (a / 4096 + 1) := by omega
  have htouch : p'.touch (4096 * (a / 4096 + 1)) = none := by
    rw [touch, hout _ (by omega), hnone, Option.isSome_none, if_neg Bool.false_ne_true, if_neg]
    intro hany
    obtain ⟨v, hv, heq⟩ := List.any_eq_true.mp hany
    rw [hmmap] at hv
    obtain ⟨hlt, hpage⟩ := hno v hv
    have hsame := (same_page_iff hlt (by omega)).mp (beq_iff_eq.mp heq)
    omega
  have hrest : bs.drop k ≠ [] := by
    rw [← List.length_pos_iff, List.length_drop]
    omega
  obtain ⟨c, cs, hcs⟩ := List.exists_cons_of_ne_nil hrest
  rw [← List.take_append_drop k bs, store_append, hstore, Option.bind_some, hlen, hnext, hcs, store,
    htouch, Option.bind_none]

/-! ### Allocations and reads -/

/-- A VMA behind all others is the end of the heap. -/
theorem heapEnd_concat {l : List Vma} {v : Vma} (hne : l ≠ []) (hv : v.growsDown = 0)
    (hlt : heapEnd l < v.vEnd) : heapEnd (l ++ [v]) = v.vEnd := by
  obtain ⟨w, ws, rfl⟩ := List.exists_cons_of_ne_nil hne
  rw [heapEnd, List.tail_cons] at hlt
  rw [heapEnd, List.cons_append, List.tail_cons, List.foldl_append, List.foldl_cons, List.foldl_nil,
    if_pos hv, if_pos hlt]

/-- `malloc` where nothing has been freed. -/
theorem malloc_unfreed (hne : p.mmap ≠ []) (hfree : ∀ v ∈ p.mmap, v.isNextFreed = 0) {size : Nat}
    (hpos : 0 < size) (hlt : heapEnd p.mmap + size < 2 ^ 64) (nd : Nat × Nat) :
    ∃ v : Vma, p.malloc size nd = (heapEnd p.mmap, { p with mmap := p.mmap ++ [v] }) ∧
      v.vStart = heapEnd p.mmap ∧ v.isNextFreed = 0 ∧
      heapEnd (p.mmap ++ [v]) = heapEnd p.mmap + size := by
  have hchain : p.mmap.IsChain (NoReuse size) := by
    refine List.isChain_iff_getElem.mpr fun i hi hc => ?_
    rw [hfree _ (List.getElem_mem _)] at hc
    exact absurd hc.1 (by decide)
  obtain ⟨v, hmalloc, hstart, hend, hfreed, hgrows⟩ : ∃ v : Vma,
      Sbunix.malloc size nd.1 nd.2 p.mmap = (heapEnd p.mmap, p.mmap ++ [v]) ∧
      v.vStart = heapEnd p.mmap ∧ v.vEnd = heapEnd p.mmap + size ∧ v.isNextFreed = 0 ∧
      v.growsDown = 0 :=
    ⟨_, malloc_noReuse hne hchain hlt nd.1 nd.2, rfl, rfl, rfl, rfl⟩
  refine ⟨v, by rw [malloc, hmalloc], hstart, hfreed, ?_⟩
  rw [← hend]
  exact heapEnd_concat hne hgrows (by omega)

variable {d : FileDescriptor} {n : Nat} {t : List UInt8}

/-- `read` from an open file. -/
theorem read_spec (hT : p.files.TableOk task) (hn : 0 < n) (hlt : n < 100)
    (hd : p.files.slot task n = d) (hname : d.name ≠ []) (buf count : Nat) :
    ∃ files : Files, files.TableOk task ∧
      files.slot task n = { d with offset := d.offset + (memread m d.offset count).length } ∧
      p.read m task n buf count = (store { p with files := files } buf
        (if (memread m d.offset count).length < count then memread m d.offset count ++ [0]
          else memread m d.offset count)).map
        fun p => (((memread m d.offset count).length : Int), p) := by
  obtain ⟨files, hread, hT', hslot⟩ := hT.readFile_eq (m := m) hn hlt hd hname count
  rw [Int.toNat_natCast] at hread hslot
  refine ⟨files, hT', hslot, ?_⟩
  have hneg : ¬ ((memread m d.offset count).length : Int) < 0 := by omega
  simp only [read, hread, Option.bind_eq_bind, Option.bind_some, if_neg hneg, Nat.cast_lt]

/-- **The heap of a program that has just been started**: nothing has been freed; what shares a page
with the end of the heap is there, and nothing behind it is, up to `top`; nothing else starts
there. -/
structure Fresh (p : Process) (top : Nat) : Prop where
  ne : p.mmap ≠ []
  unfreed : ∀ v ∈ p.mmap, v.isNextFreed = 0
  room : heapEnd p.mmap + 0x3000 ≤ top
  below : top ≤ 2 ^ 63
  page : heapEnd p.mmap % 4096 ≠ 0 → p.HasPage (heapEnd p.mmap)
  blank : ∀ x, heapEnd p.mmap ≤ x → x < top →
    heapEnd p.mmap % 4096 = 0 ∨ x / 4096 ≠ heapEnd p.mmap / 4096 → p.memory x = none
  apart : ∀ v ∈ p.mmap, v.vStart < heapEnd p.mmap ∨ top ≤ v.vStart ∧ v.vStart < 2 ^ 64

/-- The first allocation can be stored to. -/
theorem Fresh.ready (h : p.Fresh top) {v : Vma} (hv : v.vStart = heapEnd p.mmap) (files : Files) :
    Ready ⟨files, p.memory, p.mmap ++ [v]⟩ (heapEnd p.mmap) := by
  have hroom := h.room
  have hbelow := h.below
  by_cases h0 : heapEnd p.mmap % 4096 = 0
  · refine Or.inr ⟨h.blank _ (le_refl _) (by omega) (Or.inl h0), v,
      List.mem_append_right _ (List.mem_singleton_self v), by omega, by rw [hv]⟩
  · exact Or.inl (h.page h0)

end Process

/-! ### `cat` -/

open Process

variable {d : FileDescriptor} {n : Nat} {t : List UInt8}

variable (node) in
/-- The buffer of a turn is a new VMA, and `read` stores to it. -/
theorem catLoop_turn (hne : p.mmap ≠ []) (hfree : ∀ v ∈ p.mmap, v.isNextFreed = 0)
    (hlt : heapEnd p.mmap + catSize < 2 ^ 64) (hT : p.files.TableOk task) (hn : 0 < n)
    (hn' : n < 100) (hd : p.files.slot task n = d) (hname : d.name ≠ []) (bytes : List UInt8)
    (hbytes : memread m d.offset catSize = bytes) :
    ∃ (v : Vma) (files : Files), v.vStart = heapEnd p.mmap ∧ v.isNextFreed = 0 ∧
      heapEnd (p.mmap ++ [v]) = heapEnd p.mmap + catSize ∧ files.TableOk task ∧
      files.slot task n = { d with offset := d.offset + bytes.length } ∧
      ∀ fuel, catLoop m task node n (fuel + 1) p =
        (store ⟨files, p.memory, p.mmap ++ [v]⟩ (heapEnd p.mmap)
          (if bytes.length < catSize then bytes ++ [0] else bytes)).bind fun q =>
          (q.write (heapEnd p.mmap)).bind fun printed =>
            if bytes = [] then some (printed, q)
            else (catLoop m task node n fuel q).map fun r => (printed ++ r.1, r.2) := by
  obtain ⟨v, hmalloc, hv, hfreed, hheap⟩ :=
    malloc_unfreed hne hfree (show 0 < catSize by decide) hlt (node p.mmap)
  obtain ⟨files, hT', hd', hread⟩ := read_spec (m := m)
    (p := { p with mmap := p.mmap ++ [v] }) hT hn hn' hd hname (heapEnd p.mmap) catSize
  rw [hbytes] at hd' hread
  refine ⟨v, files, hv, hfreed, hheap, hT', hd', fun fuel => ?_⟩
  rw [catLoop, hmalloc]
  dsimp only
  rw [hread]
  cases store (⟨files, p.memory, p.mmap ++ [v]⟩ : Process) (heapEnd p.mmap)
      (if bytes.length < catSize then bytes ++ [0] else bytes) with
  | none => rfl
  | some q =>
    simp only [Option.map_some, Option.bind_some, Nat.cast_eq_zero, List.length_eq_zero_iff]

variable (node) in
/-- **The file fits**: it is printed, and the second read finds its end. -/
theorem catLoop_prints (h : p.Fresh top) (hT : p.files.TableOk task) (hn : 0 < n) (hlt : n < 100)
    (hd : p.files.slot task n = d) (hname : d.name ≠ []) (ht : slice m d.offset t.length = t)
    (h0 : 0 ∉ t) (hend : m (d.offset + t.length) = 0)
    (hfit : heapEnd p.mmap % 4096 + t.length < 4096) :
    ∃ p' : Process, p'.files.TableOk task ∧
      ∀ fuel, catLoop m task node n (fuel + 2) p = some (t, p') := by
  have hroom := h.room
  have hbelow := h.below
  have hsize : catSize = 4096 := rfl
  have hwalk : walkFuel = 65537 := rfl
  have hbytes : memread m d.offset catSize = t := by
    rw [Files.memread_of_slice ht h0 hend, List.take_of_length_le (by omega)]
  obtain ⟨v, files, hv, hfreed, hheap, hT₁, hd₁, hturn⟩ :=
    catLoop_turn node h.ne h.unfreed (by omega) hT hn hlt hd hname t hbytes
  rw [if_pos (by omega)] at hturn
  have hne : t ++ [0] ≠ [] := by simp
  have hlen : (t ++ [0]).length = t.length + 1 := by
    rw [List.length_append, List.length_singleton]
  obtain ⟨p₁, hstore, hfiles, hmmap, hin, hout⟩ :=
    store_spec (h.ready hv files) (by omega) (by omega) hne
  replace hfiles : p₁.files = files := hfiles
  have hprint : p₁.write (heapEnd p.mmap) = some t :=
    cString_spec h0 (fun i hi => hin i (by omega)) (by omega)
  simp only [hstore, hprint, Option.bind_some] at hturn
  by_cases hnil : t = []
  · -- the file is empty
    refine ⟨p₁, hfiles ▸ hT₁, fun fuel => ?_⟩
    rw [hturn, if_pos hnil]
  · -- the second buffer
    have hfree₁ : ∀ w ∈ p₁.mmap, w.isNextFreed = 0 := by
      intro w hw
      rw [hmmap] at hw
      rcases List.mem_append.mp hw with hw | hw
      · exact h.unfreed w hw
      · rwa [List.mem_singleton.mp hw]
    have hheap₁ : heapEnd p₁.mmap = heapEnd p.mmap + 4096 := by
      rw [hmmap]
      exact hheap
    have hbytes₁ : memread m (d.offset + t.length) catSize = [] :=
      (Files.memread_eq_nil (by decide)).mpr hend
    obtain ⟨v₁, files₁, hv₁, -, -, hT₂, -, hturn₁⟩ :=
      catLoop_turn node (d := { d with offset := d.offset + t.length }) (by simp [hmmap])
        hfree₁ (by omega) (hfiles ▸ hT₁) hn hlt (hfiles ▸ hd₁) hname [] hbytes₁
    have hblank : p₁.memory (heapEnd p₁.mmap) = none := by
      rw [hout _ (by omega)]
      exact h.blank _ (by omega) (by omega) (by omega)
    have hready : Process.Ready ⟨files₁, p₁.memory, p₁.mmap ++ [v₁]⟩ (heapEnd p₁.mmap) :=
      Or.inr ⟨hblank, v₁, List.mem_append_right _ (List.mem_singleton_self v₁), by omega,
        by rw [hv₁]⟩
    obtain ⟨p₂, hstore₂, hfiles₂, -, hin₂, -⟩ := store_spec hready (by omega)
      (by rw [List.length_singleton]; omega) (List.cons_ne_nil 0 [])
    replace hfiles₂ : p₂.files = files₁ := hfiles₂
    have hprint₂ : p₂.write (heapEnd p₁.mmap) = some [] :=
      cString_spec List.not_mem_nil (fun i hi => hin₂ i (by simpa using hi)) (by decide)
    refine ⟨p₂, hfiles₂ ▸ hT₂, fun fuel => ?_⟩
    rw [hturn, if_neg hnil, hturn₁, List.length_nil, if_pos (by decide), List.nil_append, hstore₂,
      Option.bind_some, hprint₂, Option.bind_some, if_pos rfl, Option.map_some, List.append_nil]

/-- A string that runs into a page that is not there. -/
theorem cString_eq_none {mem : UserMem} {k : Nat} (hin : ∀ i < k, ∃ c, mem (a + i) = some c ∧ c ≠ 0)
    (hout : mem (a + k) = none) (fuel : Nat) : cString mem fuel a = none := by
  induction fuel generalizing a k with
  | zero => rfl
  | succ fuel ih =>
    rw [cString]
    cases k with
    | zero =>
      rw [Nat.add_zero] at hout
      rw [hout]
      rfl
    | succ k =>
      obtain ⟨c, hc, hne⟩ := hin 0 (Nat.succ_pos k)
      rw [Nat.add_zero] at hc
      have hrest := @ih (a + 1) k
        (fun i hi => by
          rw [Nat.add_assoc, Nat.add_comm 1]
          exact hin (i + 1) (Nat.succ_lt_succ hi))
        (by rwa [Nat.add_assoc, Nat.add_comm 1])
      rw [hc, Option.bind_eq_bind, Option.bind_some, if_neg hne, hrest, Option.map_none]

variable (node) in
/-- **The file does not fit**: the first read faults where it leaves the page, or `kprintf` does
behind the buffer. -/
theorem catLoop_stops (h : p.Fresh top) (hT : p.files.TableOk task) (hn : 0 < n) (hlt : n < 100)
    (hd : p.files.slot task n = d) (hname : d.name ≠ []) (ht : slice m d.offset t.length = t)
    (h0 : 0 ∉ t) (hend : m (d.offset + t.length) = 0)
    (hover : 4096 ≤ heapEnd p.mmap % 4096 + t.length) (fuel : Nat) :
    catLoop m task node n fuel p = none := by
  have hroom := h.room
  have hbelow := h.below
  have hsize : catSize = 4096 := rfl
  rcases fuel with _ | fuel
  · rfl
  obtain ⟨v, files, hv, -, -, -, -, hturn⟩ :=
    catLoop_turn node h.ne h.unfreed (by omega) hT hn hlt hd hname _
      (Files.memread_of_slice ht h0 hend)
  have hlen : (t.take catSize).length = min catSize t.length := List.length_take
  rw [hturn]
  by_cases hin : heapEnd p.mmap % 4096 = 0
  · -- the buffer is full
    rw [if_neg (by omega)]
    have hne : t.take catSize ≠ [] := List.ne_nil_of_length_pos (by omega)
    obtain ⟨p₁, hstore, -, -, hbytes, hout⟩ :=
      store_spec (h.ready hv files) (by omega) (by omega) hne
    have hprint : p₁.write (heapEnd p.mmap) = none := by
      refine cString_eq_none (k := catSize) (fun i hi => ?_) ?_ walkFuel
      · have hi' : i < (t.take catSize).length := by omega
        refine ⟨(t.take catSize)[i], (hbytes i hi').trans (List.getElem?_eq_getElem hi'), ?_⟩
        intro hc
        exact h0 (hc ▸ List.mem_of_mem_take (List.getElem_mem hi'))
      · rw [hout _ (by omega)]
        exact h.blank _ (by omega) (by omega) (Or.inl hin)
    rw [hstore, Option.bind_some, hprint, Option.bind_none]
  · -- the read goes on to the next page
    have hnone : p.memory (4096 * (heapEnd p.mmap / 4096 + 1)) = none :=
      h.blank _ (by omega) (by omega) (Or.inr (by omega))
    have hno : ∀ w ∈ p.mmap ++ [v], w.vStart < 2 ^ 64 ∧
        w.vStart / 4096 ≠ heapEnd p.mmap / 4096 + 1 := by
      intro w hw
      rcases List.mem_append.mp hw with hw | hw
      · have := h.apart w hw
        omega
      · rw [List.mem_singleton.mp hw, hv]
        omega
    have hlong : 4096 < heapEnd p.mmap % 4096 +
        (if (t.take catSize).length < catSize then t.take catSize ++ [0]
          else t.take catSize).length := by
      split
      · rw [List.length_append, List.length_singleton]
        omega
      · omega
    rw [store_over_page (h.ready hv files) (by omega) hlong hnone hno, Option.bind_none]

theorem closeFile_returns (s : Files) (task : Nat) (hlt : n < 100) :
    ∃ r, s.closeFile task n = some r := by
  have hfd : ¬ (n : Int) < 0 := by omega
  rw [Files.closeFile, if_neg hfd, Int.toNat_natCast, Files.getFdAddress, if_pos (by omega),
    Option.bind_eq_bind, Option.bind_some]
  split_ifs <;> exact ⟨_, rfl⟩

variable {cwd file name prog : List UInt8} {start : Nat} {fd : Int} {files : Files}

/-- **`cat` prints a file** exactly if its text, and the NUL behind it, fit on the page on which the
first buffer starts. Otherwise the machine comes to a stop. -/
theorem cat_prints_iff (h : p.Fresh top) (hT : p.files.TableOk task)
    (hopen : p.files.openFile m ar task cwd file = some (fd, files)) (hfd : 0 ≤ fd)
    (hx : files.phys.exhausted = false) (hres : resolveFile m ar cwd file = some (start, name))
    (hname : name ≠ []) (ht : slice m start t.length = t) (h0 : 0 ∉ t)
    (hend : m (start + t.length) = 0) :
    (heapEnd p.mmap % 4096 + t.length < 4096 →
      ∃ p', ∀ fuel, cat m ar task node (fuel + 2) cwd p [prog, file] = some (t ++ [0x0A], p')) ∧
    (¬ heapEnd p.mmap % 4096 + t.length < 4096 →
      ∀ fuel, cat m ar task node fuel cwd p [prog, file] = none) := by
  obtain ⟨n, start', name', rfl, hn, hlt, hres', hT', hslot⟩ := Files.openFile_slot hT hopen hfd hx
  obtain ⟨rfl, rfl⟩ := Prod.mk.inj (Option.some.inj (hres'.symm.trans hres))
  have hfresh : Process.Fresh { p with files := files } top :=
    ⟨h.ne, h.unfreed, h.room, h.below, h.page, h.blank, h.apart⟩
  have hfd' : ¬ (n : Int) = -1 := by omega
  have hcat : ∀ fuel, cat m ar task node fuel cwd p [prog, file] =
      (catLoop m task node n fuel { p with files := files }).bind fun r =>
        (r.2.files.closeFile task n).bind fun c =>
          some (r.1 ++ [0x0A], { r.2 with files := c.2 }) := by
    intro fuel
    rw [cat, hopen, Option.bind_eq_bind, Option.bind_some]
    dsimp only
    rw [if_neg hfd']
    rfl
  constructor
  · intro hfit
    obtain ⟨p', -, hloop⟩ := catLoop_prints node hfresh hT' hn hlt hslot hname ht h0 hend
      hfit
    obtain ⟨c, hc⟩ := closeFile_returns p'.files task hlt
    refine ⟨{ p' with files := c.2 }, fun fuel => ?_⟩
    rw [hcat, hloop, Option.bind_some, hc, Option.bind_some]
  · intro hover fuel
    have hstop := catLoop_stops node hfresh hT' hn hlt hslot hname ht h0 hend
      (not_lt.mp hover) fuel
    rw [hcat, hstop, Option.bind_none]

open Files

/-- A program with one page of code, whose heap begins behind it. -/
def startedProgram : Process where
  files := newFiles
  memory x := if x < 0x401000 then some 0 else none
  mmap := execMmap

theorem startedProgram_fresh : startedProgram.Fresh 0x500000 := by
  have hend : heapEnd startedProgram.mmap = 0x401000 := by decide
  refine ⟨List.cons_ne_nil _ _, by decide, by rw [hend]; decide, by decide, ?_, ?_, ?_⟩
  · intro hmod
    rw [hend] at hmod
    exact absurd hmod (by decide)
  · intro x hx _ _
    rw [hend] at hx
    exact if_neg (not_lt.mpr hx)
  · rw [hend]
    decide

/-- A file with the byte `x` in it. -/
theorem cat_prints_x : ∃ p', ∀ fuel, cat (oneFile (some 120) oneArchive.start) oneArchive
    (kernbase + 0x3000) (fun _ => (0, 0)) (fuel + 2) [] startedProgram [[], [slash, 97]] =
      some ([120, 0x0A], p') := by
  obtain ⟨s', hs', hx⟩ : ∃ s', newFiles.openFile (oneFile (some 120) oneArchive.start) oneArchive
      (kernbase + 0x3000) [] [slash, 97] = some (3, s') ∧ s'.phys.exhausted = false :=
    ⟨_, rfl, rfl⟩
  have hres : resolveFile (oneFile (some 120) oneArchive.start) oneArchive [] [slash, 97] =
      some (kernbase + 0x200200, [97]) := by rfl
  have hslice : slice (oneFile (some 120) oneArchive.start) (kernbase + 0x200200)
      ([120] : List UInt8).length = [120] := by decide
  have hend : oneFile (some 120) oneArchive.start
      (kernbase + 0x200200 + ([120] : List UInt8).length) = 0 := by decide
  have hfit : heapEnd startedProgram.mmap % 4096 + ([120] : List UInt8).length < 4096 := by decide
  exact (cat_prints_iff startedProgram_fresh newFiles_ok hs' (by decide) hx hres
    (List.cons_ne_nil _ _) hslice (by decide) hend).1 hfit

end Sbunix
