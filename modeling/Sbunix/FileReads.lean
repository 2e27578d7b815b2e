import Sbunix.KernelHalf

/-!
# What the loader reads of a file

Which bytes `loadFile`, `validate_elf_file` and `map_elf_file` look at, as distances from the ELF
header. Addresses have 64 bits, so a distance close to `2 ^ 64` is a byte in front of the header.

Of the bounds of these reads only one is checked, the end of the program headers, after `e_phoff`
and `e_phnum` have been read and with a sum that may wrap. The file part of a segment is read from
`elf_file + p_offset`, which is 64 times as far behind the header, a page at a time: the pages are
`64 * 0x1000` bytes apart.

* `loadFileReads` — the reads, in order; `loadFileReads_congr`: what is loaded depends on them only,
  and `fileSegments_fileView`: it is what `loadFile` loads;
* `readsInFile_iff` — they lie in the file exactly if the header does, the program headers do not
  wrap around, and each segment does with its pages spread out like this;
* `not_readsInFile` — a file for which they do not.
-/

namespace Sbunix

open ByteMem

/-- Memory by the distance from `elf`. The loader writes to pages that it takes, and those are none
of the file's. -/
def fileView (m : Mem) (elf : Nat) : Mem := fun k => m (elf + k % 2 ^ 64)

/-- A read of `len` bytes that starts at the distance `pos`. -/
structure FileRead where
  pos : Nat
  len : Nat
  deriving DecidableEq, Repr

/-- **The read lies in the file**, which has `size` bytes. -/
def FileRead.InFile (size : Nat) (r : FileRead) : Prop :=
  ∀ k < r.len, (r.pos + k) % 2 ^ 64 < size

attribute [ext] Elf64Phdr

/-! ### The reads -/

/-- `validate_elf_file` compares one byte after the other, and then `e_type`. -/
def validateReads (f : Mem) : List FileRead :=
  ⟨0, 1⟩ :: if f 0 ≠ 0x7F then [] else
  ⟨1, 1⟩ :: if f 1 ≠ 0x45 then [] else
  ⟨2, 1⟩ :: if f 2 ≠ 0x4C then [] else
  ⟨3, 1⟩ :: if f 3 ≠ 0x46 then [] else [⟨16, 2⟩]

/-- The `while (temp > 0)` loop of `map_elf_file`. -/
def copyReads : Nat → Nat → Nat → List FileRead
  | 0, _, _ => []
  | fuel + 1, temp, temp3 =>
    if temp > 0 then
      if temp > 0x1000 then
        ⟨64 * temp3, 0x1000⟩ :: copyReads fuel (temp - 0x1000) ((temp3 + 0x1000) % 2 ^ 64)
      else [⟨64 * temp3, temp⟩]
    else []

/-- The file part of a segment. -/
def Elf64Phdr.dataReads (hdr : Elf64Phdr) : List FileRead :=
  copyReads (hdr.pFilesz + 1) hdr.pFilesz hdr.pOffset

/-- `map_elf_file` for the header at the distance `a`: `p_filesz`, `p_memsz`, `p_offset` and
`p_vaddr`, and `p_flags` when the sizes are in order. -/
def mapElfFileReads (a : Nat) (hdr : Elf64Phdr) : List FileRead :=
  [⟨a + 32, 8⟩, ⟨a + 40, 8⟩, ⟨a + 8, 8⟩, ⟨a + 16, 8⟩] ++
    if hdr.pMemsz < hdr.pFilesz then [] else ⟨a + 4, 4⟩ :: hdr.dataReads

/-- The loop over the program headers, and `e_entry` after it. -/
def loadSegmentsReads (f : Mem) : List Nat → Nat → List FileRead
  | [], _ => [⟨24, 8⟩]
  | i :: is, counter =>
    if counter > 100 then []
    else
      let a := ePhoff f 0 + 56 * i
      let hdr := elfProgramHdr f 0 i
      ⟨a, 4⟩ :: if hdr.pType = elfPtLoad then
        mapElfFileReads a hdr ++
          if hdr.pMemsz < hdr.pFilesz then [] else loadSegmentsReads f is (counter + 1)
      else loadSegmentsReads f is counter

/-- `loadFile` on a file of `size` bytes. -/
def loadFileReads (f : Mem) (size : Nat) : List FileRead :=
  [⟨32, 8⟩, ⟨56, 2⟩] ++ validateReads f ++
    if validateElfFile f 0 = false then []
    else [⟨32, 8⟩, ⟨56, 2⟩] ++
      if size < (ePhoff f 0 + ePhnum f 0 * 56) % 2 ^ 64 then []
      else loadSegmentsReads f (List.range (ePhnum f 0)) 0

variable {f g : Mem} {size : Nat}

/-- **What a loader should do**: read bytes of the file only. -/
def ReadsInFile (f : Mem) (size : Nat) : Prop := ∀ r ∈ loadFileReads f size, r.InFile size

/-! ### The file in memory -/

theorem readWord_fileView {m : Mem} {elf a n : Nat} (ha : a + 8 ≤ 2 ^ 64) :
    readWord (fileView m elf) a n = readWord m (elf + a) n := by
  unfold readWord
  congr 1
  simp only [read64, fileView]
  rw [Nat.mod_eq_of_lt (by omega : a < 2 ^ 64), Nat.mod_eq_of_lt (by omega : a + 1 < 2 ^ 64),
    Nat.mod_eq_of_lt (by omega : a + 2 < 2 ^ 64), Nat.mod_eq_of_lt (by omega : a + 3 < 2 ^ 64),
    Nat.mod_eq_of_lt (by omega : a + 4 < 2 ^ 64), Nat.mod_eq_of_lt (by omega : a + 5 < 2 ^ 64),
    Nat.mod_eq_of_lt (by omega : a + 6 < 2 ^ 64), Nat.mod_eq_of_lt (by omega : a + 7 < 2 ^ 64)]
  simp only [Nat.add_assoc]

theorem loadedSegments_congr {m m' : Mem} {elf elf' : Nat} {is : List Nat} {counter : Nat}
    (h : ∀ i ∈ is, elfProgramHdr m elf i = elfProgramHdr m' elf' i) :
    loadedSegments m elf is counter = loadedSegments m' elf' is counter := by
  induction is generalizing counter with
  | nil => rfl
  | cons i is ih =>
    have hrest : ∀ c, loadedSegments m elf is c = loadedSegments m' elf' is c :=
      fun c => ih fun j hj => h j (List.mem_cons_of_mem i hj)
    simp only [loadedSegments, h i List.mem_cons_self, hrest]

/-- **The segments that `loadFile` loads** are those of the view, as long as the program headers do
not wrap around. -/
theorem fileSegments_fileView {m : Mem} {elf : Nat}
    (hwrap : ePhoff m elf + ePhnum m elf * 56 < 2 ^ 64) :
    fileSegments (fileView m elf) 0 size = fileSegments m elf size := by
  have hoff : ePhoff (fileView m elf) 0 = ePhoff m elf := readWord_fileView (by decide)
  have hnum : ePhnum (fileView m elf) 0 = ePhnum m elf := readWord_fileView (by decide)
  have htype : eType (fileView m elf) 0 = eType m elf := readWord_fileView (by decide)
  have hmagic : validateElfFile (fileView m elf) 0 = validateElfFile m elf := by
    simp only [validateElfFile, htype]
    rfl
  have hheaders : ∀ i ∈ List.range (ePhnum m elf),
      elfProgramHdr (fileView m elf) 0 i = elfProgramHdr m elf i := by
    intro i hi
    have hlt := List.mem_range.mp hi
    -- a field of the program header
    have hword : ∀ b n, b + 8 ≤ 56 → readWord (fileView m elf) (ePhoff m elf + 56 * i + b) n =
        readWord m (elf + ePhoff m elf + 56 * i + b) n := by
      intro b n hb
      rw [readWord_fileView (by omega)]
      congr 1
      omega
    have h0 := hword 0 4 (by decide)
    simp only [Nat.add_zero] at h0
    simp only [elfProgramHdr, hoff, Nat.zero_add, h0, hword 4 4 (by decide), hword 8 8 (by decide),
      hword 16 8 (by decide), hword 32 8 (by decide), hword 40 8 (by decide)]
  unfold fileSegments
  rw [hoff, hnum, hmagic, loadedSegments_congr hheaders]

/-! ### Nothing else is read -/

/-- `f` and `g` have the same bytes where it is read. -/
def SameReads (f g : Mem) (rs : List FileRead) : Prop :=
  ∀ r ∈ rs, ∀ k < r.len, f (r.pos + k) = g (r.pos + k)

theorem sameReads_cons {r : FileRead} {rs : List FileRead} : SameReads f g (r :: rs) ↔
    (∀ k < r.len, f (r.pos + k) = g (r.pos + k)) ∧ SameReads f g rs :=
  List.forall_mem_cons

theorem sameReads_append {rs rs' : List FileRead} :
    SameReads f g (rs ++ rs') ↔ SameReads f g rs ∧ SameReads f g rs' :=
  List.forall_mem_append

theorem readWord_eight {a : Nat} (h : ∀ k < 8, f (a + k) = g (a + k)) :
    readWord f a 8 = readWord g a 8 := by
  refine readWord_congr fun x hlo hhi => ?_
  have := h (x - a) (by omega)
  rwa [Nat.add_sub_cancel' hlo] at this

/-- A word of four bytes depends on these only, … -/
theorem readWord_four {a : Nat} (h : ∀ k < 4, f (a + k) = g (a + k)) :
    readWord f a 4 = readWord g a 4 := by
  have h0 : f a = g a := h 0 (by decide)
  have h1 := h 1 (by decide)
  have h2 := h 2 (by decide)
  have h3 := h 3 (by decide)
  unfold readWord read64
  rw [h0, h1, h2, h3]
  omega

/-- … and one of two bytes likewise. -/
theorem readWord_two {a : Nat} (h : ∀ k < 2, f (a + k) = g (a + k)) :
    readWord f a 2 = readWord g a 2 := by
  have h0 : f a = g a := h 0 (by decide)
  have h1 := h 1 (by decide)
  unfold readWord read64
  rw [h0, h1]
  omega

theorem validateReads_congr (h : SameReads f g (validateReads f)) :
    validateReads g = validateReads f ∧ validateElfFile g 0 = validateElfFile f 0 := by
  unfold validateReads at h
  obtain ⟨h0, h⟩ := sameReads_cons.mp h
  have h0 : f 0 = g 0 := h0 0 Nat.one_pos
  by_cases c0 : f 0 ≠ 0x7F
  · have hne := beq_eq_false_iff_ne.mpr c0
    simp [validateReads, validateElfFile, ← h0, hne, c0]
  rw [if_neg c0] at h
  obtain ⟨h1, h⟩ := sameReads_cons.mp h
  have h1 : f 1 = g 1 := h1 0 Nat.one_pos
  by_cases c1 : f 1 ≠ 0x45
  · have hne := beq_eq_false_iff_ne.mpr c1
    simp [validateReads, validateElfFile, ← h0, ← h1, hne, c1]
  rw [if_neg c1] at h
  obtain ⟨h2, h⟩ := sameReads_cons.mp h
  have h2 : f 2 = g 2 := h2 0 Nat.one_pos
  by_cases c2 : f 2 ≠ 0x4C
  · have hne := beq_eq_false_iff_ne.mpr c2
    simp [validateReads, validateElfFile, ← h0, ← h1, ← h2, hne, c2]
  rw [if_neg c2] at h
  obtain ⟨h3, h⟩ := sameReads_cons.mp h
  have h3 : f 3 = g 3 := h3 0 Nat.one_pos
  by_cases c3 : f 3 ≠ 0x46
  · have hne := beq_eq_false_iff_ne.mpr c3
    simp [validateReads, validateElfFile, ← h0, ← h1, ← h2, ← h3, hne, c3]
  rw [if_neg c3] at h
  -- all four bytes are right, and `e_type` has been read
  have htype : eType g 0 = eType f 0 := (readWord_two (sameReads_cons.mp h).1).symm
  simp only [validateReads, validateElfFile, htype, ← h0, ← h1, ← h2, ← h3, Nat.zero_add, and_self]

theorem loadSegmentsReads_congr (hoff : ePhoff f 0 = ePhoff g 0) {is : List Nat} {counter : Nat}
    (h : SameReads f g (loadSegmentsReads f is counter)) :
    loadSegmentsReads g is counter = loadSegmentsReads f is counter ∧
      loadedSegments g 0 is counter = loadedSegments f 0 is counter := by
  induction is generalizing counter with
  | nil => exact ⟨rfl, rfl⟩
  | cons i is ih =>
    unfold loadSegmentsReads at h ⊢
    unfold loadedSegments
    by_cases hmany : counter > 100
    · simp only [if_pos hmany, and_self]
    simp only [if_neg hmany] at h ⊢
    obtain ⟨htype, h⟩ := sameReads_cons.mp h
    -- the fields of a program header, as far as they have been read
    have htype : (elfProgramHdr g 0 i).pType = (elfProgramHdr f 0 i).pType := by
      have := readWord_four htype
      simp only [elfProgramHdr, hoff, Nat.zero_add] at this ⊢
      exact this.symm
    rw [htype, ← hoff]
    by_cases hload : (elfProgramHdr f 0 i).pType = elfPtLoad
    · simp only [if_pos hload] at h ⊢
      obtain ⟨hmap, hrest⟩ := sameReads_append.mp h
      obtain ⟨hfour, hdata⟩ := sameReads_append.mp hmap
      obtain ⟨hfilesz, hfour⟩ := sameReads_cons.mp hfour
      obtain ⟨hmemsz, hfour⟩ := sameReads_cons.mp hfour
      obtain ⟨hoffset, hfour⟩ := sameReads_cons.mp hfour
      obtain ⟨hvaddr, -⟩ := sameReads_cons.mp hfour
      have hfilesz : (elfProgramHdr g 0 i).pFilesz = (elfProgramHdr f 0 i).pFilesz := by
        have := readWord_eight hfilesz
        simp only [elfProgramHdr, hoff, Nat.zero_add] at this ⊢
        exact this.symm
      have hmemsz : (elfProgramHdr g 0 i).pMemsz = (elfProgramHdr f 0 i).pMemsz := by
        have := readWord_eight hmemsz
        simp only [elfProgramHdr, hoff, Nat.zero_add] at this ⊢
        exact this.symm
      have hoffset : (elfProgramHdr g 0 i).pOffset = (elfProgramHdr f 0 i).pOffset := by
        have := readWord_eight hoffset
        simp only [elfProgramHdr, hoff, Nat.zero_add] at this ⊢
        exact this.symm
      have hvaddr : (elfProgramHdr g 0 i).pVaddr = (elfProgramHdr f 0 i).pVaddr := by
        have := readWord_eight hvaddr
        simp only [elfProgramHdr, hoff, Nat.zero_add] at this ⊢
        exact this.symm
      simp only [mapElfFileReads, Elf64Phdr.dataReads, hfilesz, hmemsz, hoffset]
      by_cases hsizes : (elfProgramHdr f 0 i).pMemsz < (elfProgramHdr f 0 i).pFilesz
      · simp only [if_pos hsizes, and_self]
      · simp only [if_neg hsizes] at hdata hrest ⊢
        obtain ⟨hreads, hsegs⟩ := ih hrest
        have hflags : (elfProgramHdr g 0 i).pFlags = (elfProgramHdr f 0 i).pFlags := by
          have := readWord_four (sameReads_cons.mp hdata).1
          simp only [elfProgramHdr, hoff, Nat.zero_add] at this ⊢
          exact this.symm
        refine ⟨by rw [hreads], ?_⟩
        rw [hsegs]
        congr 1
        exact Elf64Phdr.ext htype hflags hoffset hvaddr hfilesz hmemsz
    · simp only [if_neg hload] at h ⊢
      obtain ⟨hreads, hsegs⟩ := ih h
      exact ⟨by rw [hreads], hsegs⟩

/-- **What is loaded depends on the bytes that are read only**, and so do the reads. -/
theorem loadFileReads_congr (h : SameReads f g (loadFileReads f size)) :
    loadFileReads g size = loadFileReads f size ∧ fileSegments g 0 size = fileSegments f 0 size := by
  unfold loadFileReads at h ⊢
  obtain ⟨hfields, hrest⟩ := sameReads_append.mp h
  obtain ⟨hfields, hvalid⟩ := sameReads_append.mp hfields
  obtain ⟨hoff, hfields⟩ := sameReads_cons.mp hfields
  have hoff : ePhoff f 0 = ePhoff g 0 := readWord_eight hoff
  have hnum : ePhnum f 0 = ePhnum g 0 := readWord_two (sameReads_cons.mp hfields).1
  obtain ⟨hvalid, hmagic⟩ := validateReads_congr hvalid
  unfold fileSegments
  rw [hvalid, hmagic, ← hoff, ← hnum]
  -- both loaders stop at the same check
  by_cases hbad : validateElfFile f 0 = false
  · simp only [hbad, true_or, if_true, and_self]
  rw [if_neg hbad] at hrest ⊢
  obtain ⟨-, hrest⟩ := sameReads_append.mp hrest
  by_cases hend : size < (ePhoff f 0 + ePhnum f 0 * 56) % 2 ^ 64
  · simp only [if_neg hbad, hend, or_true, if_true, and_self]
  rw [if_neg hend] at hrest ⊢
  obtain ⟨hreads, hsegs⟩ := loadSegmentsReads_congr hoff hrest
  have hgo : ¬(validateElfFile f 0 = false ∨
      size < (ePhoff f 0 + ePhnum f 0 * 56) % 2 ^ 64) := by
    rw [not_or]
    exact ⟨hbad, hend⟩
  rw [if_neg hbad, if_neg hend, hreads, if_neg hgo, if_neg hgo]
  exact ⟨rfl, hsegs⟩

/-! ### Reads that lie in the file -/

/-- The file part, whose pages are read `64 * 0x1000` bytes apart, ends in the file. -/
def Elf64Phdr.DataFits (size : Nat) (hdr : Elf64Phdr) : Prop :=
  hdr.pFilesz = 0 ∨
    64 * (hdr.pOffset % 2 ^ 58 + 0x1000 * ((hdr.pFilesz - 1) / 0x1000)) +
      ((hdr.pFilesz - 1) % 0x1000 + 1) ≤ size

/-- The header fields lie in the file, and the end of the program headers does not wrap around. -/
structure HeadersFit (f : Mem) (size : Nat) : Prop where
  header : 58 ≤ size
  nowrap : validateElfFile f 0 = true → (ePhoff f 0 + ePhnum f 0 * 56) % 2 ^ 64 ≤ size →
    ePhoff f 0 + ePhnum f 0 * 56 < 2 ^ 64

theorem inFile_iff {pos len : Nat} (hsize : size < 2 ^ 31) (hlen : 0 < len) :
    (FileRead.mk pos len).InFile size ↔ pos % 2 ^ 64 + len ≤ size := by
  constructor
  · intro h
    by_contra hc
    -- the first byte is in the file, so the one behind the file is reached
    have h0 := h 0 hlen
    have hend := h (size - pos % 2 ^ 64) (by simp only at h0 ⊢; omega)
    simp only at h0 hend
    omega
  · intro h k hk
    simp only at hk ⊢
    omega

/-- The pages of a file part. -/
theorem copyReads_inFile (hsize : size < 2 ^ 31) {n temp : Nat} (temp3 : Nat) (hn : temp < n) :
    (∀ r ∈ copyReads n temp temp3, r.InFile size) ↔ temp = 0 ∨
      64 * (temp3 % 2 ^ 58 + 0x1000 * ((temp - 1) / 0x1000)) + ((temp - 1) % 0x1000 + 1) ≤ size := by
  -- induction on the rounds; a source in the file does not wrap around at the next page
  induction n generalizing temp temp3 with
  | zero => omega
  | succ n ih =>
    have hscale : 64 * temp3 % 2 ^ 64 = 64 * (temp3 % 2 ^ 58) :=
      Nat.mul_mod_mul_left 64 temp3 (2 ^ 58)
    unfold copyReads
    by_cases hpos : temp > 0
    · rw [if_pos hpos]
      by_cases hbig : temp > 0x1000
      · rw [if_pos hbig, List.forall_mem_cons, inFile_iff hsize (by decide), hscale,
          ih _ (by omega)]
        omega
      · rw [if_neg hbig, List.forall_mem_singleton, inFile_iff hsize hpos, hscale]
        omega
    · rw [if_neg hpos]
      exact iff_of_true (fun r hr => absurd hr List.not_mem_nil) (.inl (by omega))

theorem dataReads_inFile (hsize : size < 2 ^ 31) (hdr : Elf64Phdr) :
    (∀ r ∈ hdr.dataReads, r.InFile size) ↔ hdr.DataFits size :=
  copyReads_inFile hsize hdr.pOffset (Nat.lt_succ_self _)

/-- The reads of a segment that is loaded are among those of the loop. -/
theorem dataReads_subset {is : List Nat} {counter : Nat} {hdr : Elf64Phdr}
    (hh : hdr ∈ loadedSegments f 0 is counter) :
    ∀ r ∈ hdr.dataReads, r ∈ loadSegmentsReads f is counter := by
  -- induction on the program headers; a header that ends the loop has no segment loaded
  induction is generalizing counter with
  | nil => exact absurd hh List.not_mem_nil
  | cons i is ih =>
    intro r hr
    unfold loadedSegments at hh
    unfold loadSegmentsReads
    by_cases hmany : counter > 100
    · rw [if_pos hmany] at hh
      exact absurd hh List.not_mem_nil
    rw [if_neg hmany] at hh ⊢
    dsimp only at hh ⊢
    refine List.mem_cons_of_mem _ ?_
    by_cases hload : (elfProgramHdr f 0 i).pType = elfPtLoad
    · rw [if_pos hload] at hh ⊢
      by_cases hsizes : (elfProgramHdr f 0 i).pMemsz < (elfProgramHdr f 0 i).pFilesz
      · rw [if_pos hsizes] at hh
        exact absurd hh List.not_mem_nil
      · rw [if_neg hsizes] at hh ⊢
        rcases List.mem_cons.mp hh with rfl | hh
        · apply List.mem_append_left
          rw [mapElfFileReads, if_neg hsizes]
          exact List.mem_append_right _ (List.mem_cons_of_mem _ hr)
        · exact List.mem_append_right _ (ih hh r hr)
    · rw [if_neg hload] at hh ⊢
      exact ih hh r hr

/-- **The loop reads in the file**, when the program headers and the segments lie there. -/
theorem loadSegmentsReads_inFile (hsize : size < 2 ^ 31) (hheader : 58 ≤ size) {is : List Nat}
    {counter : Nat} (hi : ∀ i ∈ is, ePhoff f 0 + 56 * i + 56 ≤ size)
    (hdata : ∀ hdr ∈ loadedSegments f 0 is counter, hdr.DataFits size) :
    ∀ r ∈ loadSegmentsReads f is counter, r.InFile size := by
  induction is generalizing counter with
  | nil =>
    rw [loadSegmentsReads, List.forall_mem_singleton, inFile_iff hsize (by decide)]
    omega
  | cons i is ih =>
    have hlast := hi i List.mem_cons_self
    have hrest : ∀ j ∈ is, ePhoff f 0 + 56 * j + 56 ≤ size :=
      fun j hj => hi j (List.mem_cons_of_mem i hj)
    -- the fields of this program header
    have hfield : ∀ k len, 0 < len → k + len ≤ 56 →
        (FileRead.mk (ePhoff f 0 + 56 * i + k) len).InFile size := by
      intro k len hlen hk
      rw [inFile_iff hsize hlen]
      omega
    unfold loadedSegments at hdata
    unfold loadSegmentsReads
    by_cases hmany : counter > 100
    · rw [if_pos hmany]
      exact fun r hr => absurd hr List.not_mem_nil
    rw [if_neg hmany] at hdata ⊢
    dsimp only at hdata ⊢
    rw [List.forall_mem_cons]
    refine ⟨hfield 0 4 (by decide) (by decide), ?_⟩
    by_cases hload : (elfProgramHdr f 0 i).pType = elfPtLoad
    · rw [if_pos hload] at hdata ⊢
      rw [List.forall_mem_append, mapElfFileReads, List.forall_mem_append]
      have hfour : ∀ r ∈ [FileRead.mk (ePhoff f 0 + 56 * i + 32) 8, ⟨ePhoff f 0 + 56 * i + 40, 8⟩,
          ⟨ePhoff f 0 + 56 * i + 8, 8⟩, ⟨ePhoff f 0 + 56 * i + 16, 8⟩], r.InFile size := by
        simp only [List.forall_mem_cons]
        exact ⟨hfield 32 8 (by decide) (by decide), hfield 40 8 (by decide) (by decide),
          hfield 8 8 (by decide) (by decide), hfield 16 8 (by decide) (by decide),
          fun r hr => absurd hr List.not_mem_nil⟩
      by_cases hsizes : (elfProgramHdr f 0 i).pMemsz < (elfProgramHdr f 0 i).pFilesz
      · rw [if_pos hsizes, if_pos hsizes]
        exact ⟨⟨hfour, fun r hr => absurd hr List.not_mem_nil⟩,
          fun r hr => absurd hr List.not_mem_nil⟩
      · rw [if_neg hsizes] at hdata
        rw [if_neg hsizes, if_neg hsizes]
        refine ⟨⟨hfour, ?_⟩, ?_⟩
        · rw [List.forall_mem_cons]
          refine ⟨hfield 4 4 (by decide) (by decide), ?_⟩
          exact (dataReads_inFile hsize _).mpr (hdata _ List.mem_cons_self)
        · exact ih hrest fun hdr hh => hdata hdr (List.mem_cons_of_mem _ hh)
    · rw [if_neg hload] at hdata ⊢
      exact ih hrest hdata

theorem validateReads_inFile (hsize : size < 2 ^ 31) (hheader : 58 ≤ size) :
    ∀ r ∈ validateReads f, r.InFile size := by
  have hall : ∀ r ∈ validateReads f, 0 < r.len ∧ r.pos + r.len ≤ 18 := by
    intro r hr
    unfold validateReads at hr
    split_ifs at hr <;> simp only [List.mem_cons, List.not_mem_nil, or_false] at hr
    · obtain rfl := hr
      decide
    · rcases hr with rfl | rfl <;> decide
    · rcases hr with rfl | rfl | rfl <;> decide
    · rcases hr with rfl | rfl | rfl | rfl <;> decide
    · rcases hr with rfl | rfl | rfl | rfl | rfl <;> decide
  intro r hr
  obtain ⟨hpos, hend⟩ := hall r hr
  rw [inFile_iff hsize hpos]
  omega

/-- Program headers that wrap around begin far behind the file. -/
theorem headers_noWrap (hsize : size < 2 ^ 31)
    (h : ∀ r ∈ loadSegmentsReads f (List.range (ePhnum f 0)) 0, r.InFile size) :
    ePhoff f 0 + ePhnum f 0 * 56 < 2 ^ 64 := by
  have hnum : ePhnum f 0 < 2 ^ 16 := Nat.mod_lt _ (by decide)
  have hoff : ePhoff f 0 < 2 ^ 64 := readWord_lt f 32 8
  by_contra hwrap
  obtain ⟨n, hn⟩ : ∃ n, ePhnum f 0 = n + 1 := ⟨ePhnum f 0 - 1, by omega⟩
  -- the read of the first `p_type`
  have hfirst : (FileRead.mk (ePhoff f 0 + 56 * 0) 4) ∈
      loadSegmentsReads f (List.range (ePhnum f 0)) 0 := by
    rw [hn, List.range_succ_eq_map, loadSegmentsReads, if_neg (by decide)]
    exact List.mem_cons_self
  have := (inFile_iff hsize (by decide)).mp (h _ hfirst)
  omega

theorem ReadsInFile.fits (hsize : size < 2 ^ 31) (h : ReadsInFile f size) :
    HeadersFit f size ∧ ∀ hdr ∈ fileSegments f 0 size, hdr.DataFits size := by
  unfold ReadsInFile loadFileReads at h
  rw [List.forall_mem_append, List.forall_mem_append] at h
  obtain ⟨⟨hfields, -⟩, hrest⟩ := h
  have hheader : 58 ≤ size := by
    have := (inFile_iff hsize (by decide)).mp (hfields ⟨56, 2⟩ (by simp))
    omega
  by_cases hmagic : validateElfFile f 0 = false
  · refine ⟨⟨hheader, fun h => absurd h (by rw [hmagic]; decide)⟩, ?_⟩
    rw [fileSegments, if_pos (.inl hmagic)]
    exact fun hdr hh => absurd hh List.not_mem_nil
  rw [if_neg hmagic, List.forall_mem_append] at hrest
  by_cases hend : size < (ePhoff f 0 + ePhnum f 0 * 56) % 2 ^ 64
  · refine ⟨⟨hheader, fun _ h => absurd hend (by omega)⟩, ?_⟩
    rw [fileSegments, if_pos (.inr hend)]
    exact fun hdr hh => absurd hh List.not_mem_nil
  rw [if_neg hend] at hrest
  refine ⟨⟨hheader, fun _ _ => headers_noWrap hsize hrest.2⟩, ?_⟩
  rw [fileSegments, if_neg (by rw [not_or]; exact ⟨hmagic, hend⟩)]
  intro hdr hh
  exact (dataReads_inFile hsize hdr).mp fun r hr => hrest.2 r (dataReads_subset hh r hr)

theorem HeadersFit.readsInFile (hsize : size < 2 ^ 31) (h : HeadersFit f size)
    (hdata : ∀ hdr ∈ fileSegments f 0 size, hdr.DataFits size) : ReadsInFile f size := by
  obtain ⟨hheader, hnowrap⟩ := h
  have hfields : ∀ r ∈ [FileRead.mk 32 8, ⟨56, 2⟩], r.InFile size := by
    simp only [List.forall_mem_cons]
    refine ⟨?_, ?_, fun r hr => absurd hr List.not_mem_nil⟩
    · rw [inFile_iff hsize (by decide)]
      omega
    · rw [inFile_iff hsize (by decide)]
      omega
  unfold ReadsInFile loadFileReads
  rw [List.forall_mem_append, List.forall_mem_append]
  refine ⟨⟨hfields, validateReads_inFile hsize hheader⟩, ?_⟩
  by_cases hmagic : validateElfFile f 0 = false
  · rw [if_pos hmagic]
    exact fun r hr => absurd hr List.not_mem_nil
  rw [if_neg hmagic, List.forall_mem_append]
  refine ⟨hfields, ?_⟩
  by_cases hend : size < (ePhoff f 0 + ePhnum f 0 * 56) % 2 ^ 64
  · rw [if_pos hend]
    exact fun r hr => absurd hr List.not_mem_nil
  rw [if_neg hend]
  rw [fileSegments, if_neg (by rw [not_or]; exact ⟨hmagic, hend⟩)] at hdata
  -- all headers lie in the file, since their end does and is no wrapped sum
  have hlt := hnowrap (by simpa using hmagic) (by omega)
  refine loadSegmentsReads_inFile hsize hheader (fun i hi => ?_) hdata
  have := List.mem_range.mp hi
  omega

/-- **The loader reads bytes of the file only**, exactly if the header lies in the file, the end of
the program headers does not wrap around, and every segment that is loaded fits in the file with
its pages `64 * 0x1000` bytes apart. The size is an `int`, as `toInteger` returns it. -/
theorem readsInFile_iff (f : Mem) (hsize : size < 2 ^ 31) : ReadsInFile f size ↔
    HeadersFit f size ∧ ∀ hdr ∈ fileSegments f 0 size, hdr.DataFits size :=
  ⟨ReadsInFile.fits hsize, fun ⟨hheaders, hdata⟩ => hheaders.readsInFile hsize hdata⟩

/-- The whole file as one segment. -/
theorem readsInFile_whole : ReadsInFile (fileView (sampleLoader 0 120).phys.mem 0x2000) 120 := by
  refine (readsInFile_iff _ (by decide)).mpr ⟨⟨by decide, fun _ _ => by decide +kernel⟩, ?_⟩
  have hsegs : fileSegments (fileView (sampleLoader 0 120).phys.mem 0x2000) 0 120 =
      [⟨1, 5, 0, 0x400000, 120, 120⟩] := by decide +kernel
  rw [hsegs, List.forall_mem_singleton]
  exact .inr (by decide)

/-- **A byte far behind the file is read.** The only segment of this valid executable of 120 bytes
is the byte at offset `0x40`; the loader reads the byte at offset `0x1000`. -/
theorem not_readsInFile : ValidElf (sampleLoader 0x40 1).phys.mem 0x2000 120 ∧
    ¬ ReadsInFile (fileView (sampleLoader 0x40 1).phys.mem 0x2000) 120 := by
  refine ⟨sampleLoader_valid (by decide) (by decide +kernel) (by decide +kernel) (by decide +kernel)
    (by decide +kernel), fun hall => ?_⟩
  have hread : FileRead.mk 0x1000 1 ∈
      loadFileReads (fileView (sampleLoader 0x40 1).phys.mem 0x2000) 120 := by decide +kernel
  exact absurd (hall _ hread 0 (by decide)) (by decide)

end Sbunix
