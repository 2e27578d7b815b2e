import Sbunix.DirentBuffer
import Sbunix.PathBuffers
import Sbunix.Programs

/-!
# `ls`

`bin/ls` over the system calls that it makes: it has `getdents` fill a new allocation with records,
goes from record to record by `d_reclen`, and prints the names that do not begin with a dot.

`getDirEntries` stores to the allocation in the kernel, so that it gets no further than the page on
which the allocation starts.

* `lsLoop_eq` — the loop over the records;
* `ls_prints_iff` — the names of the first 14 children are printed, exactly if what `getDirEntries`
  stores ends on that page.
-/

namespace Sbunix

open ByteMem PathTree Files

/-! ### The code -/

section Source

variable (m : Mem) (ar : Archive) (task : Nat) (node : List Vma → Nat × Nat)

/-- `getdents`. What lies between the records is stored as it was. -/
def Process.getdents (p : Process) (fd : Int) (dirp count : Nat) : Option (Nat × Process) := do
  let (n, b) ← p.files.direntBuffer m ar task fd count fun i => (p.memory (dirp + i)).getD 0
  let p ← p.store dirp ((List.range b.top).map b.bytes)
  return (n, p)

/-- The loop of `main` in `bin/ls` over the `n` bytes at `dirp`: what it prints. -/
def lsLoop (memory : UserMem) (dirp n : Nat) : Nat → Nat → Option (List UInt8)
  | 0, _ => none
  | fuel + 1, i =>
    if i < n then do
      let low ← memory (dirp + i + 16)
      let high ← memory (dirp + i + 17)
      let reclen := low.toNat + 256 * high.toNat
      let first ← memory (dirp + i + 18)
      if first = 0x2E then lsLoop memory dirp n fuel (i + reclen)
      else do
        let name ← cString memory walkFuel (dirp + i + 18)
        let rest ← lsLoop memory dirp n fuel (i + reclen)
        return name ++ text "  " ++ rest
    else some []

/-- `getcwd`, in the working directory `cwd`. -/
def Process.getcwd (p : Process) (cwd : List UInt8) (buf size : Nat) : Option Process :=
  p.store buf (PathBuffers.valueCopy size (some cwd))

/-- `main` of `bin/ls` from the allocation of `dirp` on: what it prints. -/
def lsPath (fuel : Nat) (cwd : List UInt8) (p : Process) (filePath : List UInt8) :
    Option (List UInt8 × Process) := do
  let (dirp, p) := p.malloc 4096 (node p.mmap)
  let (fd, files) ← p.files.openFile m ar task cwd filePath
  let p := { p with files := files }
  if fd = -1 then some ([], p)
  else
    let (n, p) ← p.getdents m ar task fd dirp 4096
    let printed ← lsLoop p.memory dirp n fuel 0
    let (_, files) ← p.files.closeFile task fd
    some (printed ++ [0x0A], { p with files := files })

/-- `main` of `bin/ls`. -/
def ls (fuel : Nat) (cwd : List UInt8) (p : Process) :
    List (List UInt8) → Option (List UInt8 × Process)
  | [] => none
  | [_] => do
    let (buf, p) := p.malloc 4096 (node p.mmap)
    let p ← p.getcwd cwd buf 1024
    let filePath ← cString p.memory walkFuel buf
    lsPath m ar task node fuel cwd p filePath
  | _ :: filePath :: _ => lsPath m ar task node fuel cwd p filePath

end Source

/-! ### The records -/

/-- What is shown of a name. -/
def shown (name : List UInt8) : List UInt8 :=
  if name.head? = some 0x2E then [] else name ++ text "  "

variable {m b : Mem} {ar : Archive} {task a n fuel dirp : Nat} {names : List (List UInt8)}
  {name : List UInt8} {memory : UserMem}

theorem slice_getElem? (m : Mem) (a : Nat) {n i : Nat} (hi : i < n) :
    (slice m a n)[i]? = some (m (a + i)) := by
  induction n generalizing a i with
  | zero => exact absurd hi (Nat.not_lt_zero i)
  | succ n ih =>
    rw [slice]
    cases i with
    | zero => rfl
    | succ i =>
      rw [List.getElem?_cons_succ, ih (a + 1) (Nat.lt_of_succ_lt_succ hi), Nat.add_assoc,
        Nat.add_comm 1]

/-- The bytes of a record. -/
theorem IsDirent.getElem? (h : IsDirent b a name) {i : Nat} (hi : i < name.length + 19) :
    (direntBytes name)[i]? = some (b (a + i)) := by
  have hbytes : slice b a (direntBytes name).length = direntBytes name := h.2
  rw [← direntBytes_length] at hi
  rw [← hbytes]
  exact slice_getElem? b a hi

/-- **The loop over the records**: it goes from one to the next, and prints the names. -/
theorem lsLoop_eq (hrec : IsDirents b a names) (hlen : ∀ name ∈ names, name.length < 255)
    (hn : a + direntSize * names.length = n)
    (hmem : ∀ i < n, memory (dirp + i) = some (b i)) (fuel : Nat) :
    lsLoop memory dirp n (names.length + 1 + fuel) a = some (names.flatMap shown) := by
  induction names generalizing a with
  | nil =>
    rw [List.length_nil, Nat.mul_zero, Nat.add_zero] at hn
    rw [List.length_nil, Nat.zero_add, Nat.add_comm, lsLoop, if_neg (by omega)]
    rfl
  | cons name names ih =>
    obtain ⟨hfirst, hrest⟩ := hrec
    have hname := hlen name List.mem_cons_self
    rw [List.length_cons, Nat.mul_succ] at hn
    have hsize : direntSize = 280 := rfl
    -- the bytes of the first record
    have hbyte : ∀ i < name.length + 19, memory (dirp + a + i) = (direntBytes name)[i]? := by
      intro i hi
      rw [hfirst.getElem? hi, Nat.add_assoc]
      exact hmem (a + i) (by omega)
    have hlow : memory (dirp + a + 16) = some 0x18 := hbyte 16 (by omega)
    have hhigh : memory (dirp + a + 17) = some 0x01 := hbyte 17 (by omega)
    have htext : ∀ i ≤ name.length, memory (dirp + a + 18 + i) = (name ++ [0])[i]? := by
      intro i hi
      rw [Nat.add_assoc, hbyte (18 + i) (by omega), direntBytes, List.append_assoc,
        List.getElem?_append_right (by simp)]
      congr 1
      simp
    have hstring : cString memory walkFuel (dirp + a + 18) = some name :=
      cString_spec hfirst.1 htext (by have : walkFuel = 65537 := rfl; omega)
    have hnext := ih hrest (fun c hc => hlen c (List.mem_cons_of_mem name hc)) (by omega)
    have hhead : memory (dirp + a + 18) = some ((name ++ [0]).headD 0) := by
      have := htext 0 (Nat.zero_le _)
      rw [Nat.add_zero] at this
      rw [this]
      cases name with
      | nil => rfl
      | cons c name => rfl
    have hreclen : (0x18 : UInt8).toNat + 256 * (0x01 : UInt8).toNat = direntSize := by decide
    rw [List.length_cons, show names.length + 1 + 1 + fuel = names.length + 1 + fuel + 1 by omega,
      lsLoop, if_pos (by omega), hlow, hhigh, hhead]
    simp only [Option.bind_eq_bind, Option.bind_some, hreclen, hnext, hstring, List.flatMap_cons]
    cases name with
    | nil => rfl
    | cons c name =>
      by_cases hc : c = 0x2E
      · subst hc
        rfl
      · have hshown : shown (c :: name) = c :: name ++ text "  " := by
          rw [shown, List.head?_cons, if_neg (by simpa using hc)]
        rw [List.cons_append, List.headD_cons, if_neg hc, hshown]
        simp

/-! ### What `getDirEntries` leaves in the buffer -/

variable {t inside : Forest UInt8 (List UInt8)} {k count addr : Nat} {fd : Int} {bytes : Mem}
  {f : Files} {d : List UInt8} {cs : List (List UInt8)} {s : DirentLoop}

open DirentLoop

/-- Nothing is stored behind the place of the next record. -/
theorem subNexts_top_le (hcs : Components cs) (htop : s.buffer.top ≤ s.buf + direntSize) :
    (cs.foldl subNext s).buffer.top ≤ (cs.foldl subNext s).buf + direntSize := by
  induction cs generalizing s with
  | nil => exact htop
  | cons c cs ih =>
    obtain ⟨⟨-, hlen⟩, hrest⟩ := List.forall_mem_cons.mp hcs
    have hsize : direntSize = 280 := rfl
    refine ih hrest ?_
    rw [subNext]
    split
    · have htop' : (s.buffer.putNul s.buf).top = max s.buffer.top (s.buf + 1) := rfl
      dsimp only
      rw [htop']
      omega
    · rw [s.write_top c]
      by_cases hc : c = s.prevDir
      · rw [write_old_buf hc]
        omega
      · rw [write_new_buf hc]
        omega

variable (bytes) in
/-- **What the kernel stores** for a directory other than the root: the first children that fit, and
what comes again of the last one, or a NUL. -/
theorem Files.TreeArchive.direntBuffer_records (hT : TreeArchive m ar t k)
    (hd : (d, inside) ∈ t.dirs slash []) (hfd : 0 ≤ fd)
    (haddr : f.getFdAddress task fd.toNat = some addr) (hne : addr ≠ 0)
    (hname : (f.fds addr).name = d)
    (hstart : directoryStart ar t d = some (f.fds addr).start) (hmod : count % direntSize ≠ 0) :
    let kept := (inside.children slash).take (count / direntSize)
    ∃ b, f.direntBuffer m ar task fd count bytes = some (direntSize * kept.length, b) ∧
      IsDirents b.bytes 0 kept ∧ (∀ name ∈ kept, name.length < 255) ∧
      direntSize * kept.length < b.top ∧ b.top ≤ direntSize * (kept.length + 1) := by
  intro kept
  obtain ⟨a, after, hin⟩ := hT.inArchive hd
  obtain ⟨hslash, hdne⟩ := hT.dirs_ne hd
  rw [directoryStart, if_neg hslash, hin.found] at hstart
  have hstart : (f.fds addr).start = a := (Option.some.inj hstart).symm
  have hheaders := hin.headers
  obtain ⟨-, -, -, -, hle, hrest⟩ := hheaders
  rw [hin.next] at hrest
  have hlow : 512 ≤ ar.start := le_trans (by unfold kernbase; omega) hT.kernel
  have hlow' := hin.low
  have hwithin : within d ((inside.paths slash d).map Prod.fst ++ after) = firstNames inside d :=
    within_paths hin.proper hin.outside
  have hchildren : changes [] (firstNames inside d) = inside.children slash :=
    changes_firstNames hin.proper
  have hcs : Components (firstNames inside d) := components_firstNames hrest
  obtain ⟨name, hmem⟩ := List.exists_mem_of_ne_nil after hin.nonempty
  -- the loop goes through the components behind the name of the directory
  set l : DirentLoop := ⟨⟨bytes, 0⟩, 0, count, []⟩ with hl
  have hloop := subLoop_eq (s := l) hrest (hrest.length_lt_fuel (by omega)) hin.chars
    ⟨name, List.mem_append_right _ hmem, hin.outside name hmem⟩
  rw [hwithin] at hloop
  have hrun : f.direntBuffer m ar task fd count bytes =
      some (((firstNames inside d).foldl subNext l).result count) := by
    unfold Files.direntBuffer
    rw [if_neg (not_lt.mpr hfd), haddr, Option.bind_some, if_neg hne, hname, if_neg hslash,
      if_pos hdne, hstart, hloop]
    rfl
  obtain ⟨hbuf, hrec⟩ := subNexts_records (s := l) count hcs rfl
  have htop := subNexts_top_le (s := l) hcs (Nat.zero_le _)
  have hsum := (later_subNexts l (firstNames inside d)).sum
  rw [hrun]
  generalize (firstNames inside d).foldl subNext l = s' at hbuf hrec htop hsum
  simp only [hl, hchildren, Nat.zero_add] at hbuf hrec hsum
  replace hbuf : s'.buf = direntSize * kept.length := hbuf
  have hlen : kept.length ≤ count / direntSize := List.length_take_le _ _
  have hmul : direntSize * (count / direntSize) + count % direntSize = count :=
    Nat.div_add_mod count direntSize
  have hfit : direntSize * kept.length ≤ direntSize * (count / direntSize) :=
    Nat.mul_le_mul_left direntSize hlen
  -- there is room for the NUL
  have hpos : 0 < s'.count := by omega
  have hresult : s'.result count = (direntSize * kept.length, s'.buffer.putNul s'.buf) := by
    rw [DirentLoop.result, if_neg (by omega), if_pos hpos]
    refine Prod.ext ?_ rfl
    dsimp only
    omega
  have hnames : ∀ name ∈ kept, name.length < 255 := by
    intro name hname
    have hmem' := List.mem_of_mem_take hname
    rw [← hchildren] at hmem'
    exact (hcs name (mem_of_mem_changes hmem')).2
  have hnul : (s'.buffer.putNul s'.buf).top = max s'.buffer.top (s'.buf + 1) := rfl
  have hsize : direntSize = 280 := rfl
  refine ⟨_, congrArg some hresult, ?_, hnames, ?_, ?_⟩
  · refine hrec.congr hnames fun x _ hx => Buffer.puts_of_out (.inl ?_)
    rw [Nat.zero_add] at hx
    exact lt_of_lt_of_eq hx hbuf.symm
  · rw [hnul]
    omega
  · rw [hnul, Nat.mul_succ]
    omega

/-! ### `ls` -/

open Process

variable {node : List Vma → Nat × Nat} {p : Process} {top : Nat}

/-- **Where the next allocation lands**: its first byte can be stored to, and the page behind it is
not there. -/
structure Process.Landing (p : Process) : Prop where
  ne : p.mmap ≠ []
  unfreed : ∀ v ∈ p.mmap, v.isNextFreed = 0
  room : heapEnd p.mmap + 0x2000 ≤ 2 ^ 63
  here : p.HasPage (heapEnd p.mmap) ∨ p.memory (heapEnd p.mmap) = none
  next : p.memory (4096 * (heapEnd p.mmap / 4096 + 1)) = none
  apart : ∀ v ∈ p.mmap, v.vStart < 2 ^ 64 ∧ v.vStart / 4096 ≠ heapEnd p.mmap / 4096 + 1

theorem Process.Fresh.landing (h : p.Fresh top) : p.Landing := by
  have hroom := h.room
  have hbelow := h.below
  refine ⟨h.ne, h.unfreed, by omega, ?_, ?_, ?_⟩
  · by_cases h0 : heapEnd p.mmap % 4096 = 0
    · exact Or.inr (h.blank _ (le_refl _) (by omega) (Or.inl h0))
    · exact Or.inl (h.page h0)
  · exact h.blank _ (by omega) (by omega) (Or.inr (by omega))
  · intro v hv
    have := h.apart v hv
    omega

/-- What is stored to a new allocation of a page: it goes through on the first page only. -/
theorem Process.Landing.store (h : p.Landing) {v : Vma} (hv : v.vStart = heapEnd p.mmap)
    (files : Files) {bs : List UInt8} (hne : bs ≠ []) :
    (heapEnd p.mmap % 4096 + bs.length ≤ 4096 →
      ∃ q : Process, Process.store ⟨files, p.memory, p.mmap ++ [v]⟩ (heapEnd p.mmap) bs = some q ∧
        q.files = files ∧ q.mmap = p.mmap ++ [v] ∧
        (∀ i < bs.length, q.memory (heapEnd p.mmap + i) = bs[i]?) ∧
        ∀ x, x / 4096 ≠ heapEnd p.mmap / 4096 → q.memory x = p.memory x) ∧
    (¬ heapEnd p.mmap % 4096 + bs.length ≤ 4096 →
      Process.store ⟨files, p.memory, p.mmap ++ [v]⟩ (heapEnd p.mmap) bs = none) := by
  have hroom := h.room
  have hready : Process.Ready ⟨files, p.memory, p.mmap ++ [v]⟩ (heapEnd p.mmap) := by
    rcases h.here with hpage | hnone
    · exact Or.inl hpage
    · exact Or.inr ⟨hnone, v, List.mem_append_right _ (List.mem_singleton_self v), by omega,
        by rw [hv]⟩
  constructor
  · intro hfit
    exact store_spec hready (by omega) hfit hne
  · intro hover
    refine store_over_page hready (by omega) (by omega) h.next ?_
    intro w hw
    rcases List.mem_append.mp hw with hw | hw
    · exact h.apart w hw
    · rw [List.mem_singleton.mp hw, hv]
      omega

variable {cwd filePath prog : List UInt8} {start : Nat} {files : Files}

/-- A directory is found at its header, also by `openFile`. -/
theorem Files.TreeArchive.directoryStart_eq (hA : TreeArchive m ar t k)
    (hd : (d, inside) ∈ t.dirs slash []) (haddr : getFileAddress m ar d = some start) :
    directoryStart ar t d = some start := by
  obtain ⟨a, after, hin⟩ := hA.inArchive hd
  obtain ⟨hslash, hne⟩ := hA.dirs_ne hd
  have hkernel := hA.kernel
  have hlow := hin.low
  have ha : a ≠ 0 := by
    rw [kernbase] at hkernel
    omega
  have hdir := hA.getDirAddress_eq hne hin.chars
  rw [hin.found] at hdir
  obtain ⟨r, hr, hdir⟩ := Option.map_eq_some_iff.mp hdir
  rw [getFileAddress, hr, Option.map_some] at haddr
  -- both searches look at the size in the header
  have hsize : entrySize m r.1 = 0 ∧ r.2 := by
    by_contra hc
    rw [if_neg hc] at hdir
    exact ha hdir.symm
  rw [if_pos hsize] at hdir
  have hpos : ¬ (0 < entrySize m r.1 ∧ r.2) := fun hc => absurd hc.1 (by rw [hsize.1]; decide)
  dsimp only at haddr
  rw [if_neg hpos, if_pos hsize] at haddr
  rw [directoryStart, if_neg hslash, hin.found, ← Option.some.inj haddr, hdir]
  rfl

/-- Where the descriptor of an open file is. -/
theorem Files.TableOk.address (h : f.TableOk task) (hn : n < 100) {fdStruct : FileDescriptor}
    (hslot : f.slot task n = fdStruct) (hname : fdStruct.name ≠ []) :
    ∃ a, f.getFdAddress task n = some a ∧ a ≠ 0 ∧ f.fds a = fdStruct := by
  have hptr : f.pointer task (n / 5) ≠ 0 := by
    intro h0
    rw [slot, if_pos h0] at hslot
    exact hname (by rw [← hslot]; rfl)
  refine ⟨f.slotAddr task n, getFdAddress_slot hn hptr, ?_, ?_⟩
  · have := pageAt_ne_zero (h.pages _ hptr).1
    unfold slotAddr
    omega
  · exact (slot_of_pointer rfl hptr).symm.trans hslot

variable (node) in
/-- **`ls` from the allocation on.** -/
theorem lsPath_prints (h : p.Landing) (hT : p.files.TableOk task)
    (hopen : p.files.openFile m ar task cwd filePath = some (fd, files)) (hfd : 0 ≤ fd)
    (hx : files.phys.exhausted = false) (hres : resolveFile m ar cwd filePath = some (start, d))
    (hA : TreeArchive m ar t k) (hd : (d, inside) ∈ t.dirs slash []) :
    let kept := (inside.children slash).take 14
    ∃ b, files.direntBuffer m ar task fd 4096
        (fun i => (p.memory (heapEnd p.mmap + i)).getD 0) = some (direntSize * kept.length, b) ∧
      direntSize * kept.length < b.top ∧ b.top ≤ direntSize * (kept.length + 1) ∧
      (heapEnd p.mmap % 4096 + b.top ≤ 4096 → ∃ p', ∀ fuel,
        lsPath m ar task node (fuel + 15) cwd p filePath =
          some (kept.flatMap shown ++ [0x0A], p')) ∧
      (¬ heapEnd p.mmap % 4096 + b.top ≤ 4096 → ∀ fuel,
        lsPath m ar task node fuel cwd p filePath = none) := by
  intro kept
  obtain ⟨n, start', name', rfl, hn, hlt, hres', hT', hslot⟩ := Files.openFile_slot hT hopen hfd hx
  obtain ⟨rfl, rfl⟩ := Prod.mk.inj (Option.some.inj (hres'.symm.trans hres))
  obtain ⟨addr, haddr, hne, hfds⟩ := hT'.address hlt hslot (hA.dirs_ne hd).2
  have hstart := hA.directoryStart_eq hd
    (getFileAddress_of_resolveFile hres (hA.dirs_ne hd).1)
  have hroom := h.room
  have hsize : direntSize = 280 := rfl
  obtain ⟨b, hrun, hrec, hnames, hlow, hhigh⟩ := hA.direntBuffer_records
    (fun i => (p.memory (heapEnd p.mmap + i)).getD 0) hd (by omega) haddr hne
    (by rw [hfds]) (by rw [hfds]; exact hstart) (show 4096 % direntSize ≠ 0 by decide)
  have hfourteen : 4096 / direntSize = 14 := rfl
  rw [hfourteen] at hrec hnames
  replace hrec : IsDirents b.bytes 0 kept := hrec
  replace hnames : ∀ name ∈ kept, name.length < 255 := hnames
  replace hrun : files.direntBuffer m ar task n 4096
      (fun i => (p.memory (heapEnd p.mmap + i)).getD 0) =
        some (direntSize * kept.length, b) := hrun
  replace hlow : direntSize * kept.length < b.top := hlow
  replace hhigh : b.top ≤ direntSize * (kept.length + 1) := hhigh
  obtain ⟨v, hmalloc, hv, -, -⟩ := malloc_unfreed h.ne h.unfreed (show 0 < 4096 by decide)
    (show heapEnd p.mmap + 4096 < 2 ^ 64 by omega) (node p.mmap)
  set bs := (List.range b.top).map b.bytes with hbs
  have hlen : bs.length = b.top := by rw [hbs, List.length_map, List.length_range]
  have hbsne : bs ≠ [] := List.ne_nil_of_length_pos (by omega)
  obtain ⟨hfits, hstops⟩ := h.store hv files hbsne
  rw [hlen] at hfits hstops
  have hfd' : ¬ (n : Int) = -1 := by omega
  have hls : ∀ fuel, lsPath m ar task node fuel cwd p filePath =
      (Process.store ⟨files, p.memory, p.mmap ++ [v]⟩ (heapEnd p.mmap) bs).bind fun q =>
        (lsLoop q.memory (heapEnd p.mmap) (direntSize * kept.length) fuel 0).bind fun printed =>
          (q.files.closeFile task n).bind fun c =>
            some (printed ++ [0x0A], { q with files := c.2 }) := by
    intro fuel
    rw [lsPath, hmalloc]
    dsimp only
    rw [hopen, Option.bind_eq_bind, Option.bind_some]
    dsimp only
    rw [if_neg hfd', getdents]
    dsimp only
    rw [hrun]
    simp only [Option.bind_eq_bind, Option.bind_some, ← hbs, Option.bind_assoc, Option.pure_def]
  refine ⟨b, hrun, hlow, hhigh, ?_, ?_⟩
  · intro hfit
    obtain ⟨q, hstore, -, -, hmem, -⟩ := hfits hfit
    -- what has been stored is read back
    have hback : ∀ i < direntSize * kept.length,
        q.memory (heapEnd p.mmap + i) = some (b.bytes i) := by
      intro i hi
      have hi' : i < b.top := by omega
      rw [hmem i hi', hbs, List.getElem?_map, List.getElem?_range hi', Option.map_some]
    have hkept : kept.length ≤ 14 := List.length_take_le _ _
    obtain ⟨c, hc⟩ := closeFile_returns q.files task hlt
    refine ⟨{ q with files := c.2 }, fun fuel => ?_⟩
    have hloop := lsLoop_eq hrec hnames (Nat.zero_add _) hback (fuel + (14 - kept.length))
    have hfuel : kept.length + 1 + (fuel + (14 - kept.length)) = fuel + 15 := by omega
    rw [hls, hstore, Option.bind_some, ← hfuel, hloop, Option.bind_some, hc, Option.bind_some]
  · intro hover fuel
    rw [hls, hstops hover, Option.bind_none]

/-- Where `ls` has its records: the path of the working directory is in an allocation of its own. -/
def lsBuffer (p : Process) : List (List UInt8) → Nat
  | [_] => heapEnd p.mmap + 4096
  | _ => heapEnd p.mmap

variable (m ar task node prog) in
/-- **The working directory** is stored to the first allocation; the next one lands behind it. -/
theorem lsPath_of_cwd (h : p.Fresh top) (h0 : 0 ∉ cwd) (hlen : cwd.length + 1 < 1024)
    (hfit : heapEnd p.mmap % 4096 + cwd.length < 4096) :
    ∃ q : Process, q.Landing ∧ q.files = p.files ∧ heapEnd q.mmap = heapEnd p.mmap + 4096 ∧
      (∀ i, q.memory (heapEnd p.mmap + 4096 + i) = p.memory (heapEnd p.mmap + 4096 + i)) ∧
      ∀ fuel, ls m ar task node fuel cwd p [prog] = lsPath m ar task node fuel cwd q cwd := by
  have hroom := h.room
  have hbelow := h.below
  obtain ⟨v, hmalloc, hv, hfreed, hheap⟩ := malloc_unfreed h.ne h.unfreed (show 0 < 4096 by decide)
    (show heapEnd p.mmap + 4096 < 2 ^ 64 by omega) (node p.mmap)
  have hcopy : PathBuffers.valueCopy 1024 (some cwd) = cwd ++ [0] := if_pos hlen
  have hlength : (cwd ++ [0]).length = cwd.length + 1 := by
    rw [List.length_append, List.length_singleton]
  obtain ⟨q, hstore, hfiles, hmmap, hmem, hother⟩ := (h.landing.store hv p.files
    (show cwd ++ [0] ≠ [] by simp)).1 (by omega)
  have hend : heapEnd q.mmap = heapEnd p.mmap + 4096 := by rw [hmmap, hheap]
  have hstring : cString q.memory walkFuel (heapEnd p.mmap) = some cwd :=
    cString_spec h0 (fun i hi => hmem i (by omega)) (by have : walkFuel = 65537 := rfl; omega)
  refine ⟨q, ?_, hfiles, hend, fun i => hother _ (by omega), fun fuel => ?_⟩
  · refine ⟨by simp [hmmap], ?_, by omega, Or.inr ?_, ?_, ?_⟩
    · intro w hw
      rw [hmmap] at hw
      rcases List.mem_append.mp hw with hw | hw
      · exact h.unfreed w hw
      · rwa [List.mem_singleton.mp hw]
    · rw [hend, hother _ (by omega)]
      exact h.blank _ (by omega) (by omega) (Or.inr (by omega))
    · rw [hend, hother _ (by omega)]
      exact h.blank _ (by omega) (by omega) (Or.inr (by omega))
    · intro w hw
      rw [hend]
      rw [hmmap] at hw
      rcases List.mem_append.mp hw with hw | hw
      · have := h.apart w hw
        omega
      · rw [List.mem_singleton.mp hw, hv]
        omega
  · rw [ls, hmalloc]
    dsimp only
    rw [getcwd, hcopy, hstore, Option.bind_eq_bind, Option.bind_some, hstring, Option.bind_eq_bind,
      Option.bind_some]

variable (node) in
/-- **`ls` prints a directory** other than the root: of its first 14 children, in the order of the
archive, those that do not begin with a dot, exactly if what `getDirEntries` stores for them ends on
the page on which the buffer starts. Otherwise the machine comes to a stop. -/
theorem ls_prints_iff (h : p.Fresh top) (hT : p.files.TableOk task)
    (hopen : p.files.openFile m ar task cwd filePath = some (fd, files)) (hfd : 0 ≤ fd)
    (hx : files.phys.exhausted = false) (hres : resolveFile m ar cwd filePath = some (start, d))
    (hA : TreeArchive m ar t k) (hd : (d, inside) ∈ t.dirs slash []) {args : List (List UInt8)}
    (hargs : args = [prog, filePath] ∨ args = [prog] ∧ filePath = cwd ∧ 0 ∉ cwd ∧
      cwd.length + 1 < 1024 ∧ heapEnd p.mmap % 4096 + cwd.length < 4096) :
    let kept := (inside.children slash).take 14
    ∃ b, files.direntBuffer m ar task fd 4096
        (fun i => (p.memory (lsBuffer p args + i)).getD 0) = some (direntSize * kept.length, b) ∧
      direntSize * kept.length < b.top ∧ b.top ≤ direntSize * (kept.length + 1) ∧
      (heapEnd p.mmap % 4096 + b.top ≤ 4096 → ∃ p', ∀ fuel,
        ls m ar task node (fuel + 15) cwd p args = some (kept.flatMap shown ++ [0x0A], p')) ∧
      (¬ heapEnd p.mmap % 4096 + b.top ≤ 4096 → ∀ fuel,
        ls m ar task node fuel cwd p args = none) := by
  rcases hargs with rfl | ⟨rfl, rfl, h0, hlen, hfit⟩
  · exact lsPath_prints node h.landing hT hopen hfd hx hres hA hd
  · obtain ⟨q, hlanding, hfiles, hend, hmem, hls⟩ := lsPath_of_cwd m ar task node prog h h0
      hlen hfit
    have hmod : (heapEnd p.mmap + 4096) % 4096 = heapEnd p.mmap % 4096 := by omega
    have hprints := lsPath_prints node hlanding (hfiles ▸ hT) (hfiles ▸ hopen) hfd hx hres hA hd
    simp only [hend, hmem, hmod, ← hls] at hprints
    exact hprints

/-- `ls /b/` with the file `c` in the directory. -/
theorem ls_prints_c : ∃ p', ∀ fuel, ls (binHeaders oneArchive.start) oneArchive (kernbase + 0x3000)
    (fun _ => (0, 0)) (fuel + 15) [] startedProgram [[], [slash, 98, slash]] =
      some ([99, 0x20, 0x20, 0x0A], p') := by
  obtain ⟨s', hs', hx⟩ : ∃ s', newFiles.openFile (binHeaders oneArchive.start) oneArchive
      (kernbase + 0x3000) [] [slash, 98, slash] = some (3, s') ∧ s'.phys.exhausted = false :=
    ⟨_, rfl, rfl⟩
  have hres : resolveFile (binHeaders oneArchive.start) oneArchive [] [slash, 98, slash] =
      some (oneArchive.start, [98, slash]) := by rfl
  have hdir : ([98, slash], Forest.file [99] [] .nil) ∈ binTree.dirs slash [] :=
    List.mem_cons_self
  obtain ⟨b, -, -, htop, hprints, -⟩ := ls_prints_iff (fun _ => (0, 0))
    startedProgram_fresh newFiles_ok hs' (by decide) hx hres binTree_archive hdir
    (Or.inl (rfl : [[], [slash, 98, slash]] = [[], [slash, 98, slash]]))
  have hone : ((Forest.file [99] [] .nil : Forest UInt8 (List UInt8)).children slash).take 14 =
      [[99]] := by decide
  rw [hone] at htop hprints
  have hpage : heapEnd startedProgram.mmap % 4096 = 0 := by decide
  have hsize : direntSize = 280 := rfl
  rw [List.length_singleton] at htop
  exact hprints (by omega)

end Sbunix
