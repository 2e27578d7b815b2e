import Sbunix.MapLaw
import Sbunix.Space

/-!
# The ELF loader

`map_elf_file` and `loadFile` of `sys/tarfs.c`. The archive lies in the kernel image; `elf` is
the physical address of the ELF header of the file that the archive search has found, and the
headers are read from memory as the loader goes.

`elf_file + temp3` is arithmetic on a pointer to a 64-byte header, so the source of the copy is
`elf + 64 * temp3`, and the destination starts at the beginning of the page whatever the offset
of `p_vaddr` in its page is.
-/

namespace Sbunix

open ByteMem

/-- A word of `n ≤ 8` bytes. -/
def readWord (m : Mem) (a n : Nat) : Nat := read64 m a % 256 ^ n

/-- `Elf64_Phdr`, the fields that are read. -/
structure Elf64Phdr where
  pType : Nat
  pFlags : Nat
  pOffset : Nat
  pVaddr : Nat
  pFilesz : Nat
  pMemsz : Nat
  deriving DecidableEq, Repr

def ePhoff (m : Mem) (elf : Nat) : Nat := readWord m (elf + 32) 8

def ePhnum (m : Mem) (elf : Nat) : Nat := readWord m (elf + 56) 2

def eEntry (m : Mem) (elf : Nat) : Nat := readWord m (elf + 24) 8

def eType (m : Mem) (elf : Nat) : Nat := readWord m (elf + 16) 2

/-- `elf_program_hdr + i`; a program header has 56 bytes. -/
def elfProgramHdr (m : Mem) (elf i : Nat) : Elf64Phdr :=
  let a := elf + ePhoff m elf + 56 * i
  ⟨readWord m a 4, readWord m (a + 4) 4, readWord m (a + 8) 8, readWord m (a + 16) 8,
    readWord m (a + 32) 8, readWord m (a + 40) 8⟩

/-- `ELF_PT_LOAD`. -/
def elfPtLoad : Nat := 1

def validateElfFile (m : Mem) (elf : Nat) : Bool :=
  m elf == 0x7F && m (elf + 1) == 0x45 && m (elf + 2) == 0x4C && m (elf + 3) == 0x46 &&
    eType m elf == 2

/-- What the loader works on: memory, the list of `uthread` and the counter `pageNum`. -/
structure Loader where
  phys : Phys
  mmap : List Vma
  pageNum : Int

/-- `getNextPageNum`, as the `uint64_t` it returns. -/
def pageNumWord (pageNum : Int) : Nat := (pageNum % 2 ^ 64).toNat

/-- The `while (temp > 0)` loop of `map_elf_file`; the result is memory and `vir_ker_temp2`, as
a physical address. Each round but the last takes `0x1000` from `temp`, so `temp + 1` rounds
are enough. -/
def copySegment (elf pml4 : Nat) : Nat → Phys → Nat → Nat → Nat → Nat → Phys × Nat
  | 0, s, _, _, _, kerTemp2 => (s, kerTemp2)
  | fuel + 1, s, temp, temp2, temp3, kerTemp2 =>
    if temp > 0 then
      if temp > 0x1000 then
        let s := s.memcpy (elf + 64 * temp3) kerTemp2 0x1000
        let temp2 := (temp2 + 0x1000) % 2 ^ 64
        let page := s.kmalloc
        copySegment elf pml4 fuel (page.2.mapPageForUser temp2 page.1 pml4) (temp - 0x1000) temp2
          ((temp3 + 0x1000) % 2 ^ 64) page.1
      else
        copySegment elf pml4 fuel (s.memcpy (elf + 64 * temp3) kerTemp2 temp) 0
          ((temp2 + temp) % 2 ^ 64) temp3 (kerTemp2 + temp)
    else (s, kerTemp2)

/-- `map_elf_file`; the result is what it returns and the state after it. -/
def mapElfFile (l : Loader) (elf : Nat) (hdr : Elf64Phdr) (pml4 : Nat) : Nat × Loader :=
  if hdr.pMemsz < hdr.pFilesz then (0, l)
  else
    let node := l.phys.kmalloc
    let vma : Vma :=
      { Vma.zeroed (kernbase + node.1) with
        pageNumber := pageNumWord (intSucc l.pageNum)
        vFile := kernbase + elf
        vStart := hdr.pVaddr
        vEnd := ((((hdr.pVaddr + hdr.pMemsz) % 2 ^ 64) &&& frame) + 0x1000) % 2 ^ 64
        vFlags := hdr.pFlags }
    let page := node.2.kmalloc
    let copied := copySegment elf pml4 (hdr.pFilesz + 1)
      (page.2.mapPageForUser hdr.pVaddr page.1 pml4) hdr.pFilesz hdr.pVaddr hdr.pOffset page.1
    (1, { phys := { copied.1 with
            mem := fill copied.1.mem (copied.2 + hdr.pFilesz) 0 (hdr.pMemsz - hdr.pFilesz) }
          mmap := l.mmap ++ [vma]
          pageNum := intSucc l.pageNum })

/-- The loop over the program headers; `counter` is the number of segments loaded. -/
def loadSegments (elf pml4 : Nat) : List Nat → Nat → Loader → Bool × Loader
  | [], _, l => (true, l)
  | i :: is, counter, l =>
    if counter > 100 then (false, l)
    else
      let hdr := elfProgramHdr l.phys.mem elf i
      if hdr.pType = elfPtLoad then
        let r := mapElfFile l elf hdr pml4
        if r.1 = 0 then (false, r.2) else loadSegments elf pml4 is (counter + 1) r.2
      else loadSegments elf pml4 is counter l

/-- `loadFile`; `found` is the result of the archive search, with the size of the file. -/
def loadFile (l : Loader) (found : Option (Nat × Nat)) (pml4 : Nat) : Nat × Loader :=
  match found with
  | none => (0, l)
  | some (elf, elfFileEnd) =>
    if validateElfFile l.phys.mem elf = false then (0, l)
    else if elfFileEnd < (ePhoff l.phys.mem elf + ePhnum l.phys.mem elf * 56) % 2 ^ 64 then (0, l)
    else
      let r := loadSegments elf pml4 (List.range (ePhnum l.phys.mem elf)) 0 l
      if r.1 then (eEntry r.2.phys.mem elf, r.2) else (0, r.2)

/-! ### One segment -/

variable {S : Shape} {W : Nat → Prop} {s s' : Phys} {Γ : Nat → Use} {l : Loader}

/-- A file part of one page at most is copied in one round. -/
theorem copySegment_page (elf pml4 temp2 temp3 kerTemp2 : Nat) {temp : Nat} (h : temp ≤ 0x1000) :
    copySegment elf pml4 (temp + 1) s temp temp2 temp3 kerTemp2 =
      (s.memcpy (elf + 64 * temp3) kerTemp2 temp, kerTemp2 + temp) := by
  cases temp with
  | zero => simp [copySegment, Phys.memcpy, ByteMem.copy]
  | succ n =>
    rw [copySegment, if_pos (Nat.succ_pos n), if_neg (by omega), copySegment, if_neg (by omega)]

/-- Bytes that lie in pages with a use, outside the tables of `W`. -/
def Settled (W : Nat → Prop) (Γ : Nat → Use) (a n : Nat) : Prop :=
  ∀ x, a ≤ x → x < a + n →
    Γ (x / 4096 * 4096) ≠ .unowned ∧ ∀ r p, W r → Γ (x / 4096 * 4096) ≠ .table r p

theorem Settled.builds {s₀ : Phys} {Γ₀ : Nat → Use} {a n : Nat} (h : Settled W Γ₀ a n)
    (hB : Builds S W s₀ Γ₀ s Γ) : Settled W Γ a n := fun x hx hx' => by
  rw [hB.ext _ (h x hx hx').1]
  exact h x hx hx'

/-- Settled bytes stay. -/
theorem Settled.mem {s₀ : Phys} {Γ₀ : Nat → Use} {a n x : Nat} (h : Settled W Γ₀ a n)
    (hB : Builds S W s₀ Γ₀ s Γ) (hx : a ≤ x) (hx' : x < a + n) : s.mem x = s₀.mem x := by
  obtain ⟨h₁, h₂⟩ := h x hx hx'
  exact hB.mem _ h₁ h₂ x (by omega) (by omega)

/-- **A segment whose file part fits one page.** The page of `p_vaddr` is mapped to a new frame
that holds the bytes at the source address and zeros behind them; every other translation is
kept. -/
theorem mapElfFile_page {elf pml4 : Nat} {hdr : Elf64Phdr} (h : Typed S l.phys Γ)
    (hr : S.Root pml4) (hW : W pml4) (hS : S.Accepts pml4 user)
    (hv : pml4Index hdr.pVaddr < S.top) (hms : hdr.pFilesz ≤ hdr.pMemsz)
    (hfs : hdr.pFilesz ≤ 0x1000)
    (htail : hdr.pMemsz = hdr.pFilesz ∨ hdr.pFilesz + hdr.pMemsz ≤ 0x1000)
    (hsrc : Settled W Γ (elf + 64 * hdr.pOffset) hdr.pFilesz)
    (hx : (mapElfFile l elf hdr pml4).2.phys.exhausted = false) :
    (mapElfFile l elf hdr pml4).1 = 1 ∧
    ∃ Γ' f, Builds S W l.phys Γ (mapElfFile l elf hdr pml4).2.phys Γ' ∧ Γ' f = .data ∧
      Γ f = .unowned ∧
      (mapElfFile l elf hdr pml4).2.phys.leaf hdr.pVaddr pml4 = some (f + 7) ∧
      (∀ w, pml4Index w < S.top → OtherPage hdr.pVaddr w →
        LeafKept (l.phys.leaf w pml4) ((mapElfFile l elf hdr pml4).2.phys.leaf w pml4)) ∧
      ∀ x < 4096, (mapElfFile l elf hdr pml4).2.phys.mem (f + x) =
        if x < hdr.pFilesz then l.phys.mem (elf + 64 * hdr.pOffset + x) else 0 := by
  have hdef : mapElfFile l elf hdr pml4 = (1, (mapElfFile l elf hdr pml4).2) := by
    simp only [mapElfFile, if_neg (Nat.not_lt.mpr hms)]
  refine ⟨by rw [hdef], ?_⟩
  have hphys : (mapElfFile l elf hdr pml4).2.phys =
      (let node := l.phys.kmalloc
       let page := node.2.kmalloc
       let mapped := page.2.mapPageForUser hdr.pVaddr page.1 pml4
       let copied := mapped.memcpy (elf + 64 * hdr.pOffset) page.1 hdr.pFilesz
       { copied with
         mem := fill copied.mem (page.1 + hdr.pFilesz + hdr.pFilesz) 0
          (hdr.pMemsz - hdr.pFilesz) }) := by
    simp only [mapElfFile, if_neg (Nat.not_lt.mpr hms), copySegment_page _ _ _ _ _ hfs]
  rw [hphys] at hx ⊢
  dsimp only at hx ⊢
  obtain ⟨node, s₁, h₁⟩ : ∃ node s₁, l.phys.kmalloc = (node, s₁) := ⟨_, _, rfl⟩
  obtain ⟨f, s₂, h₂⟩ : ∃ f s₂, s₁.kmalloc = (f, s₂) := ⟨_, _, rfl⟩
  simp only [h₁, h₂] at hx ⊢
  set s₃ := s₂.mapPageForUser hdr.pVaddr f pml4 with hs₃
  set s₄ := s₃.memcpy (elf + 64 * hdr.pOffset) f hdr.pFilesz with hs₄
  set s₅ : Phys := { s₄ with
    mem := fill s₄.mem (f + hdr.pFilesz + hdr.pFilesz) 0 (hdr.pMemsz - hdr.pFilesz) } with hs₅
  have hx₃ : s₃.exhausted = false := by
    simpa only [hs₅, hs₄, Phys.memcpy] using hx
  -- the list node, the page and the translation
  have hx₂ : s₂.exhausted = false := mapWith_alive hx₃
  have hk₂ := kmalloc_taken (s := s₁) (by rwa [h₂])
  simp only [h₂] at hk₂
  have hk₁ := kmalloc_taken (s := l.phys) (by rw [h₁]; exact hk₂.1.live)
  simp only [h₁] at hk₁
  have hB₁ := (Builds.refl (W := W) h).taken hk₁.1 (u := .kernel) (by simp) (by simp)
  have hB₂ := hB₁.taken hk₂.1 (u := .data) (by simp) (by simp)
  set Γ₂ := Function.update (Function.update Γ node .kernel) f .data with hΓ₂
  have hf₂ : Γ₂ f = .data := Function.update_self ..
  obtain ⟨hal, hlt, -⟩ := data_aligned hB₂.typed hf₂
  have hf52 : f < 2 ^ 52 := by
    have hlt' : f / 4096 < 65536 := hlt
    omega
  obtain ⟨Γ₃, ht, hself, hother⟩ := mapWith_spec hB₂.typed hr hv hal hf52 hx₃ hS
  replace ht : Touches S pml4 s₂ s₃ Γ₂ Γ₃ := ht
  have hB₃ := hB₂.touches ht hW
  have hf₃ : Γ₃ f = .data := ht.data f hf₂
  have hf₀ : Γ f = .unowned := by
    by_contra hne
    have := hB₁.ext f hne
    rw [hk₂.1.unowned hB₁.typed] at this
    exact hne this.symm
  -- the frame is empty before the copy
  have hz₃ : ∀ x, f ≤ x → x < f + 4096 → s₃.mem x = 0 := fun x hx₁ hx₂ => by
    rw [ht.page hB₂.typed (by simp [hf₂]) (by simp [hf₂]) hx₁ hx₂]
    exact hk₂.2.1 x hx₁ hx₂
  have he₄ : Edits s₃ s₄ f := memcpy_edits s₃ (le_refl f) (by omega)
  have he₅ : Edits s₄ s₅ f :=
    ⟨rfl, rfl, fun x hx => by simp only [hs₅]; rw [fill_apply, if_neg (by omega)], fun _ _ => rfl⟩
  have he := he₄.trans he₅
  have hB₅ := hB₃.edits he hf₀ (by simp [hf₃]) (by simp [hf₃])
  have hlook : ∀ w, pml4Index w < S.top → s₅.leaf w pml4 = s₃.leaf w pml4 := fun w hw =>
    he.leaf hB₃.typed hal (by simp [hf₃]) hr hw
  refine ⟨Γ₃, f, hB₅, hf₃, hf₀, ?_, fun w hw hne => ?_, fun x hx' => ?_⟩
  · rw [hlook _ hv]
    exact hself
  · rw [hlook w hw, ← hk₁.1.leaf h hr hw, ← hk₂.1.leaf hB₁.typed hr hw]
    exact hother w hw hne
  · -- the bytes of the frame
    have hdisj : elf + 64 * hdr.pOffset + hdr.pFilesz ≤ f ∨ f + hdr.pFilesz ≤
        elf + 64 * hdr.pOffset ∨ hdr.pFilesz = 0 := by
      by_contra hc
      obtain ⟨hne, -⟩ := hsrc (max (elf + 64 * hdr.pOffset) f) (by omega) (by omega)
      refine hne ?_
      rwa [show max (elf + 64 * hdr.pOffset) f / 4096 * 4096 = f by omega]
    have hmem₄ : s₄.mem (f + x) =
        if x < hdr.pFilesz then l.phys.mem (elf + 64 * hdr.pOffset + x) else 0 := by
      rcases Nat.eq_zero_or_pos hdr.pFilesz with h0 | hpos
      · simp only [hs₄, Phys.memcpy, h0, copy, Nat.not_lt_zero, if_false]
        exact hz₃ _ (by omega) (by omega)
      · simp only [hs₄, Phys.memcpy]
        rw [copy_apply _ (by omega)]
        by_cases hxf : x < hdr.pFilesz
        · rw [if_pos (by omega), if_pos hxf, Nat.add_sub_cancel_left]
          exact hsrc.mem hB₃ (by omega) (by omega)
        · rw [if_neg (by omega), if_neg hxf]
          exact hz₃ _ (by omega) (by omega)
    change fill s₄.mem _ 0 _ (f + x) = _
    rw [fill_apply]
    split
    · next hc =>
      rw [if_neg (by omega)]
    · exact hmem₄

/-- Such a segment takes five frames at most. -/
theorem mapElfFile_alive {elf pml4 k : Nat} {hdr : Elf64Phdr} (hms : hdr.pFilesz ≤ hdr.pMemsz)
    (hfs : hdr.pFilesz ≤ 0x1000) (hx : l.phys.exhausted = false)
    (hk : k + 5 ≤ (freeFrames l.phys.availFrames).card) :
    (mapElfFile l elf hdr pml4).2.phys.exhausted = false ∧
      k ≤ (freeFrames (mapElfFile l elf hdr pml4).2.phys.availFrames).card := by
  simp only [mapElfFile, if_neg (Nat.not_lt.mpr hms), copySegment_page _ _ _ _ _ hfs, Phys.memcpy]
  obtain ⟨hx₁, hk₁⟩ := kmalloc_alive_of_le (k := k + 4) hx hk
  obtain ⟨hx₂, hk₂⟩ := kmalloc_alive_of_le (k := k + 3) hx₁ hk₁
  exact mapWith_alive_of_le hx₂ hk₂

/-! ### Whole files -/

/-- A loadable segment of a file of `size` bytes: its file part lies in the file, and it lies in
the user half, at the same offset in its page as in the file. -/
structure SegmentOk (size : Nat) (hdr : Elf64Phdr) : Prop where
  inFile : hdr.pOffset + hdr.pFilesz ≤ size
  sizes : hdr.pFilesz ≤ hdr.pMemsz
  congruent : hdr.pOffset % 4096 = hdr.pVaddr % 4096
  userHalf : ∀ k < hdr.pMemsz, hdr.pVaddr + k < 2 ^ 64 ∧ pml4Index (hdr.pVaddr + k) < 511

/-- Program header `i` exists and is loadable. -/
def IsLoad (m : Mem) (elf i : Nat) : Prop :=
  i < ePhnum m elf ∧ (elfProgramHdr m elf i).pType = elfPtLoad

/-- **A valid executable.** -/
structure ValidElf (m : Mem) (elf size : Nat) : Prop where
  magic : validateElfFile m elf = true
  header : 64 ≤ size
  headers : ePhoff m elf + ePhnum m elf * 56 ≤ size
  segments : ∀ i, IsLoad m elf i → SegmentOk size (elfProgramHdr m elf i)
  /-- The segments occupy different pages. -/
  disjoint : ∀ i j, IsLoad m elf i → IsLoad m elf j → i ≠ j →
    ∀ k < (elfProgramHdr m elf i).pMemsz, ∀ k' < (elfProgramHdr m elf j).pMemsz,
      OtherPage ((elfProgramHdr m elf i).pVaddr + k) ((elfProgramHdr m elf j).pVaddr + k')

/-- Address `v` is mapped under `pml4`. -/
def Mapped (s : Phys) (v pml4 : Nat) : Prop :=
  s.getPhysicalPageAddr v pml4 ≠ 2 ^ 64 - 1 ∧ s.getPhysicalPageAddr v pml4 % 2 = 1

/-- The byte behind address `v`. -/
def byteAt (s : Phys) (v pml4 : Nat) : UInt8 :=
  s.mem ((s.getPhysicalPageAddr v pml4 &&& frame) + v % 4096)

/-- **The memory a file is loaded into**: a new address space whose pages are blank, and an
archive in memory that is in use. -/
structure LoadSpace (s : Phys) (elf size pml4 : Nat) : Prop where
  tree : WellFormed s pml4
  archive : ∀ x, elf ≤ x → x < elf + size → x / 4096 < maxFrames ∧
    ¬ IsFree s.availFrames (x / 4096) ∧ ¬ InTree s pml4 (x / 4096 * 4096)
  blank : ∀ v f, pml4Index v < 511 → Mapped s v pml4 → s.getPhysicalPageAddr v pml4 &&& frame = f →
    f / 4096 < maxFrames ∧ ¬ IsFree s.availFrames (f / 4096) ∧ ¬ InTree s pml4 f ∧
      ∀ x < 4096, s.mem (f + x) = 0

/-- **The image the file describes.** Mapped bytes of a segment are file bytes and then zeros,
and the pages of the file bytes are mapped. -/
def ImageOk (m : Mem) (elf : Nat) (s : Phys) (pml4 : Nat) : Prop :=
  ∀ i, IsLoad m elf i → ∀ k < (elfProgramHdr m elf i).pMemsz,
    (Mapped s ((elfProgramHdr m elf i).pVaddr + k) pml4 →
      byteAt s ((elfProgramHdr m elf i).pVaddr + k) pml4 =
        if k < (elfProgramHdr m elf i).pFilesz then m (elf + (elfProgramHdr m elf i).pOffset + k)
        else 0) ∧
    (k < (elfProgramHdr m elf i).pFilesz → Mapped s ((elfProgramHdr m elf i).pVaddr + k) pml4)

/-- **The files that load correctly.** The file part of a segment is empty, or it is the first
page of the file or a part of it; clearing the tail stays in the page of the file part; an empty
segment lies in no page of another one; and there are five frames for each program header. -/
structure LoadsWell (s : Phys) (elf : Nat) : Prop where
  filePart : ∀ i, IsLoad s.mem elf i → (elfProgramHdr s.mem elf i).pFilesz = 0 ∨
    ((elfProgramHdr s.mem elf i).pOffset = 0 ∧ (elfProgramHdr s.mem elf i).pFilesz ≤ 0x1000)
  tail : ∀ i, IsLoad s.mem elf i →
    (elfProgramHdr s.mem elf i).pMemsz = (elfProgramHdr s.mem elf i).pFilesz ∨
      (elfProgramHdr s.mem elf i).pFilesz + (elfProgramHdr s.mem elf i).pMemsz ≤ 0x1000
  empty : ∀ i j, IsLoad s.mem elf i → IsLoad s.mem elf j → i ≠ j →
    (elfProgramHdr s.mem elf j).pMemsz = 0 → ∀ k < (elfProgramHdr s.mem elf i).pMemsz,
      OtherPage ((elfProgramHdr s.mem elf i).pVaddr + k) (elfProgramHdr s.mem elf j).pVaddr
  frames : s.exhausted = false ∧ 5 * ePhnum s.mem elf ≤ (freeFrames s.availFrames).card

theorem readWord_congr {m m' : Mem} {a n : Nat} (h : ∀ x, a ≤ x → x < a + 8 → m x = m' x) :
    readWord m a n = readWord m' a n := by
  rw [readWord, readWord, read64_congr h]

/-- The headers are read from the bytes of the file. -/
theorem elfProgramHdr_congr {m m' : Mem} {elf size i : Nat} (hsize : 64 ≤ size)
    (hi : ePhoff m elf + 56 * (i + 1) ≤ size)
    (h : ∀ x, elf ≤ x → x < elf + size → m' x = m x) :
    elfProgramHdr m' elf i = elfProgramHdr m elf i := by
  have hoff : ePhoff m' elf = ePhoff m elf :=
    readWord_congr fun x hx hx' => h x (by omega)
      (lt_of_lt_of_le hx' (Nat.add_le_add_left (le_trans (by decide : 40 ≤ 64) hsize) elf))
  have hword : ∀ b ≤ 48, ∀ n, readWord m' (elf + ePhoff m elf + 56 * i + b) n =
      readWord m (elf + ePhoff m elf + 56 * i + b) n :=
    fun b hb n => readWord_congr fun x hx hx' => h x (by omega) (by omega)
  simp only [elfProgramHdr, hoff]
  rw [hword 4 (by decide), hword 8 (by decide), hword 16 (by decide), hword 32 (by decide),
    hword 40 (by decide), show readWord m' (elf + ePhoff m elf + 56 * i) 4 =
      readWord m (elf + ePhoff m elf + 56 * i) 4 from hword 0 (by decide) 4]

theorem loads_iff {m m' : Mem} {elf size : Nat} (hv : ValidElf m elf size)
    (h : ∀ x, elf ≤ x → x < elf + size → m' x = m x) {i : Nat} (hi : i < ePhnum m elf) :
    elfProgramHdr m' elf i = elfProgramHdr m elf i :=
  elfProgramHdr_congr hv.header (by have := hv.headers; omega) h

/-- Different segments do not share the first page, unless both are empty. -/
theorem first_pages {s : Phys} {elf size i j : Nat} (hv : ValidElf s.mem elf size)
    (hw : LoadsWell s elf) (hi : IsLoad s.mem elf i) (hj : IsLoad s.mem elf j) (hij : i ≠ j)
    {k : Nat} (hk : k < (elfProgramHdr s.mem elf i).pMemsz) :
    OtherPage (elfProgramHdr s.mem elf j).pVaddr ((elfProgramHdr s.mem elf i).pVaddr + k) := by
  rcases Nat.eq_zero_or_pos (elfProgramHdr s.mem elf j).pMemsz with h0 | hpos
  · exact (hw.empty i j hi hj hij h0 k hk).symm
  · exact (hv.disjoint i j hi hj hij k hk 0 hpos).symm

/-- The loader after the program headers `done`, started on memory `s₀`. -/
structure Loaded (S : Shape) (s₀ : Phys) (Γ₀ : Nat → Use) (elf pml4 : Nat) (done : List Nat)
    (s : Phys) (Γ : Nat → Use) : Prop where
  builds : Builds S (· = pml4) s₀ Γ₀ s Γ
  /-- The first page of every segment that is not empty. -/
  seg : ∀ i ∈ done, IsLoad s₀.mem elf i → 0 < (elfProgramHdr s₀.mem elf i).pMemsz →
    ∃ f, Γ f = .data ∧ s.leaf (elfProgramHdr s₀.mem elf i).pVaddr pml4 = some (f + 7) ∧
      ∀ x < 4096, s.mem (f + x) = if x < (elfProgramHdr s₀.mem elf i).pFilesz then
        s₀.mem (elf + 64 * (elfProgramHdr s₀.mem elf i).pOffset + x) else 0
  /-- Nothing else has changed. -/
  other : ∀ w, pml4Index w < S.top →
    (∀ i ∈ done, IsLoad s₀.mem elf i → OtherPage (elfProgramHdr s₀.mem elf i).pVaddr w) →
    LeafKept (s₀.leaf w pml4) (s.leaf w pml4)

/-- One program header that is loadable. -/
theorem Loaded.load {s₀ : Phys} {Γ₀ : Nat → Use} {elf size pml4 i : Nat} {done : List Nat}
    (h : Loaded S s₀ Γ₀ elf pml4 done l.phys Γ) (hv : ValidElf s₀.mem elf size)
    (hw : LoadsWell s₀ elf) (hr : S.Root pml4) (hS : S.Accepts pml4 user) (htop : S.top = 512)
    (harch : Settled (· = pml4) Γ₀ elf size) (hi : IsLoad s₀.mem elf i) (hnew : i ∉ done)
    (hx : (mapElfFile l elf (elfProgramHdr s₀.mem elf i) pml4).2.phys.exhausted = false) :
    (mapElfFile l elf (elfProgramHdr s₀.mem elf i) pml4).1 = 1 ∧
      ∃ Γ', Loaded S s₀ Γ₀ elf pml4 (done ++ [i])
        (mapElfFile l elf (elfProgramHdr s₀.mem elf i) pml4).2.phys Γ' := by
  have hseg := hv.segments i hi
  have hin : ∀ v, pml4Index v < S.top := fun v => htop ▸ pml4Index_lt v
  -- the source of the copy is the file itself
  have hfs : (elfProgramHdr s₀.mem elf i).pFilesz ≤ 0x1000 := by
    rcases hw.filePart i hi with h0 | ⟨-, h0⟩ <;> omega
  have hsrc₀ : Settled (· = pml4) Γ₀ (elf + 64 * (elfProgramHdr s₀.mem elf i).pOffset)
      (elfProgramHdr s₀.mem elf i).pFilesz := by
    rcases hw.filePart i hi with h0 | ⟨h0, -⟩
    · intro x hx hx'
      omega
    · intro x hx hx'
      have := hseg.inFile
      exact harch x (by omega) (by omega)
  have hsrc := hsrc₀.builds h.builds
  obtain ⟨hret, Γ', f, hB, hf, hf₀, hself, hother, hbytes⟩ := mapElfFile_page
    (W := (· = pml4)) h.builds.typed hr rfl hS (hin _) hseg.sizes hfs (hw.tail i hi) hsrc hx
  refine ⟨hret, Γ', h.builds.trans hB, fun j hj hjl hpos => ?_, fun w hw' hne => ?_⟩
  · rcases List.mem_append.mp hj with hjd | hj
    · -- a page loaded before is kept
      have hij : j ≠ i := by
        rintro rfl
        exact hnew hjd
      obtain ⟨g, hg, hlook, hmem⟩ := h.seg j hjd hjl hpos
      refine ⟨g, hB.data g hg, ?_, fun x hx' => ?_⟩
      · exact ((hother _ (hin _) (first_pages hv hw hjl hi hij hpos)).eq_some (by omega)).mpr hlook
      · rw [hB.mem g (by simp [hg]) (by simp [hg]) _ (by omega) (by omega)]
        exact hmem x hx'
    · obtain rfl := List.mem_singleton.mp hj
      refine ⟨f, hf, hself, fun x hx' => ?_⟩
      rw [hbytes x hx']
      by_cases hxf : x < (elfProgramHdr s₀.mem elf j).pFilesz
      · rw [if_pos hxf, if_pos hxf]
        exact hsrc₀.mem h.builds (by omega) (by omega)
      · rw [if_neg hxf, if_neg hxf]
  · refine (h.other w hw' fun j hj hjl => hne j (by simp [hj]) hjl).trans ?_
    exact hother w hw' (hne i (by simp) hi)

/-- **The loop over the program headers**, if it comes to its end. -/
theorem Loaded.loop {s₀ : Phys} {Γ₀ : Nat → Use} {elf size pml4 counter : Nat}
    {done rest : List Nat} (h : Loaded S s₀ Γ₀ elf pml4 done l.phys Γ)
    (hv : ValidElf s₀.mem elf size) (hw : LoadsWell s₀ elf) (hr : S.Root pml4)
    (hS : S.Accepts pml4 user) (htop : S.top = 512) (harch : Settled (· = pml4) Γ₀ elf size)
    (hrest : ∀ i ∈ rest, i < ePhnum s₀.mem elf) (hnd : (done ++ rest).Nodup)
    (hx : l.phys.exhausted = false)
    (hk : 5 * rest.length ≤ (freeFrames l.phys.availFrames).card)
    (hret : (loadSegments elf pml4 rest counter l).1 = true) :
    ∃ Γ', Loaded S s₀ Γ₀ elf pml4 (done ++ rest) (loadSegments elf pml4 rest counter l).2.phys Γ' := by
  induction rest generalizing done counter l Γ with
  | nil => exact ⟨Γ, by simpa [loadSegments] using h⟩
  | cons i rest ih =>
    have hi := hrest i (by simp)
    -- the header read now is the header of the file
    have hhdr : elfProgramHdr l.phys.mem elf i = elfProgramHdr s₀.mem elf i :=
      loads_iff hv (fun x hx hx' => harch.mem h.builds hx hx') hi
    have hnew : i ∉ done := fun hc =>
      (List.nodup_append.mp hnd).2.2 i hc i (by simp) rfl
    have hnd' : ((done ++ [i]) ++ rest).Nodup := by simpa using hnd
    simp only [loadSegments, hhdr] at hret ⊢
    split at hret
    · cases hret
    · next hcount =>
      rw [if_neg hcount]
      split at hret
      · next hload =>
        rw [if_pos hload]
        have hl : IsLoad s₀.mem elf i := ⟨hi, hload⟩
        have hfs : (elfProgramHdr s₀.mem elf i).pFilesz ≤ 0x1000 := by
          rcases hw.filePart i hl with h0 | ⟨-, h0⟩ <;> omega
        obtain ⟨hx', hk'⟩ := mapElfFile_alive (k := 5 * rest.length)
          (hv.segments i hl).sizes hfs hx (by simp at hk; omega)
        obtain ⟨hone, Γ', hL⟩ := h.load hv hw hr hS htop harch hl hnew hx'
        rw [if_neg (by rw [hone]; decide)] at hret ⊢
        rw [show done ++ i :: rest = (done ++ [i]) ++ rest by simp]
        exact ih hL (fun j hj => hrest j (by simp [hj])) hnd' hx' hk' hret
      · next hload =>
        rw [if_neg hload]
        rw [show done ++ i :: rest = (done ++ [i]) ++ rest by simp]
        refine ih ⟨h.builds, fun j hj hjl hpos => ?_, fun w hw' hne => ?_⟩
          (fun j hj => hrest j (by simp [hj])) hnd' hx (by simp at hk; omega) hret
        · rcases List.mem_append.mp hj with hj | hj
          · exact h.seg j hj hjl hpos
          · obtain rfl := List.mem_singleton.mp hj
            exact absurd hjl.2 hload
        · exact h.other w hw' fun j hj => hne j (by simp [hj])

/-- Everything that is marked used and has no other use counts as the kernel's. -/
def settle (s : Phys) (Γ : Nat → Use) (f : Nat) : Use :=
  if Γ f = .unowned ∧ f % 4096 = 0 ∧ f / 4096 < maxFrames ∧ ¬ IsFree s.availFrames (f / 4096) then
    .kernel
  else Γ f

theorem Typed.settle (h : Typed S s Γ) : Typed S s (settle s Γ) := by
  refine h.of_agree (fun _ _ _ _ _ _ _ => rfl) (fun f r p => ?_) fun f hf => ?_
  · unfold Sbunix.settle
    split
    · next hc => simp [hc.1]
    · rfl
  · unfold Sbunix.settle at hf
    split at hf
    · next hc => exact hc.2
    · exact h.owned f hf

/-- In a tree of its own, a used page outside the tree is settled. -/
theorem settle_kernel {pml4 f : Nat} (hmin : ∀ f, Γ f ≠ .unowned → InTree s pml4 f)
    (hal : f % 4096 = 0) (hlt : f / 4096 < maxFrames) (hu : ¬ IsFree s.availFrames (f / 4096))
    (ht : ¬ InTree s pml4 f) : settle s Γ f = .kernel := by
  have hΓ : Γ f = .unowned := by
    by_contra hne
    exact ht (hmin f hne)
  exact if_pos ⟨hΓ, hal, hlt, hu⟩

/-- **The image is the one the file describes**, for the files that `LoadsWell` admits. -/
theorem loadFile_image (l : Loader) (elf size pml4 : Nat) (hv : ValidElf l.phys.mem elf size)
    (hm : LoadSpace l.phys elf size pml4) (hw : LoadsWell l.phys elf)
    (hret : (loadFile l (some (elf, size)) pml4).1 ≠ 0) :
    ImageOk l.phys.mem elf (loadFile l (some (elf, size)) pml4).2.phys pml4 := by
  obtain ⟨Γ, hT, hmin⟩ := hm.tree.exists_typed
  set Γ₀ := settle l.phys Γ with hΓ₀
  have hT₀ : Typed (Shape.single pml4) l.phys Γ₀ := hT.settle
  have hS : (Shape.single pml4).Accepts pml4 user := ⟨by decide, trivial, fun _ _ _ => trivial⟩
  have hdiv : ∀ x, x / 4096 * 4096 / 4096 = x / 4096 := fun x => Nat.mul_div_cancel _ (by decide)
  have harch : Settled (· = pml4) Γ₀ elf size := by
    intro x hx hx'
    obtain ⟨h₁, h₂, h₃⟩ := hm.archive x hx hx'
    rw [hΓ₀, settle_kernel hmin (by omega) (by rwa [hdiv]) (by rwa [hdiv]) h₃]
    simp
  -- the run has come to the end of the program headers
  have hsucc : (loadSegments elf pml4 (List.range (ePhnum l.phys.mem elf)) 0 l).1 = true ∧
      (loadFile l (some (elf, size)) pml4).2 =
        (loadSegments elf pml4 (List.range (ePhnum l.phys.mem elf)) 0 l).2 := by
    simp only [loadFile, hv.magic, Bool.true_eq_false, if_false] at hret ⊢
    split at hret
    · exact absurd rfl hret
    · next hsize =>
      rw [if_neg hsize]
      split at hret
      · next hseg => exact ⟨hseg, by rw [if_pos hseg]⟩
      · exact absurd rfl hret
  rw [hsucc.2]
  have hstart : Loaded (Shape.single pml4) l.phys Γ₀ elf pml4 [] l.phys Γ₀ :=
    ⟨.refl hT₀, by simp, fun w _ _ => Or.inl rfl⟩
  obtain ⟨Γ', hL⟩ := hstart.loop hv hw rfl hS rfl harch (fun i hi => List.mem_range.mp hi)
    (by simpa using List.nodup_range) hw.frames.1 (by simpa using hw.frames.2) hsucc.1
  set s' := (loadSegments elf pml4 (List.range (ePhnum l.phys.mem elf)) 0 l).2.phys
  rw [List.nil_append] at hL
  intro i hi k hk
  obtain ⟨f, hf, hlook, hbytes⟩ := hL.seg i (List.mem_range.mpr hi.1) hi (Nat.zero_lt_of_lt hk)
  have hseg := hv.segments i hi
  have hfp := hw.filePart i hi
  have htl := hw.tail i hi
  set hdr := elfProgramHdr l.phys.mem elf i with hhdr
  obtain ⟨hal, hlt, -⟩ := data_aligned hL.builds.typed hf
  obtain ⟨hframe, hodd, hne1, -⟩ := leaf_frame hal hlt (e := f + 7) (Or.inl rfl)
  have hmem4 : hdr.pMemsz ≤ 4096 := by
    rcases hfp with h0 | ⟨-, h0⟩ <;> rcases htl with h1 | h1 <;> omega
  have hoff : hdr.pFilesz = 0 ∨ hdr.pOffset = 0 ∧ hdr.pVaddr % 4096 = 0 := by
    rcases hfp with h0 | ⟨h0, -⟩
    · exact Or.inl h0
    · have := hseg.congruent
      exact Or.inr ⟨h0, by omega⟩
  by_cases hpage : hdr.pVaddr % 4096 + k < 4096
  · -- the first page of the segment
    have hsame : ¬ OtherPage hdr.pVaddr (hdr.pVaddr + k) := by
      unfold OtherPage
      omega
    have hlook' : s'.getPhysicalPageAddr (hdr.pVaddr + k) pml4 = f + 7 := by
      rw [getPhysicalPageAddr_eq, leaf_same_page hsame, hlook]
      rfl
    have hmap : Mapped s' (hdr.pVaddr + k) pml4 := ⟨by rwa [hlook'], by rwa [hlook']⟩
    refine ⟨fun _ => ?_, fun _ => hmap⟩
    rw [byteAt, hlook', hframe, show (hdr.pVaddr + k) % 4096 = hdr.pVaddr % 4096 + k by omega,
      hbytes _ hpage]
    rcases hoff with h0 | ⟨h0, h1⟩
    · rw [if_neg (by omega), if_neg (by omega)]
    · rw [h1, Nat.zero_add, h0]
  · -- the page behind it, which the loader has left alone
    have hfs0 : hdr.pFilesz = 0 := by omega
    refine ⟨fun hmap => ?_, fun hc => by omega⟩
    rw [if_neg (by omega)]
    have hfirst : ∀ j ∈ List.range (ePhnum l.phys.mem elf), IsLoad l.phys.mem elf j →
        OtherPage (elfProgramHdr l.phys.mem elf j).pVaddr (hdr.pVaddr + k) := by
      intro j _ hj
      by_cases hij : i = j
      · subst hij
        unfold OtherPage
        rw [← hhdr]
        omega
      · exact first_pages hv hw hi hj hij hk
    have hkept := (hL.other _ (pml4Index_lt _) hfirst).kept
    have hsame : s'.getPhysicalPageAddr (hdr.pVaddr + k) pml4 =
        l.phys.getPhysicalPageAddr (hdr.pVaddr + k) pml4 := by
      rcases hkept with h | ⟨-, h⟩
      · exact h
      · have := hmap.2
        rw [h] at this
        cases this
    have hmap₀ : Mapped l.phys (hdr.pVaddr + k) pml4 := by
      unfold Mapped at hmap
      rwa [hsame] at hmap
    obtain ⟨h₁, h₂, h₃, h₄⟩ := hm.blank _ _ (hseg.userHalf k hk).2 hmap₀ rfl
    set g := l.phys.getPhysicalPageAddr (hdr.pVaddr + k) pml4 &&& frame with hg
    have hgal : g % 4096 = 0 := by
      rw [hg, and_frame (getPhysicalPageAddr_lt _ _ _)]
      omega
    have hgk : Γ₀ g = .kernel := settle_kernel hmin hgal h₁ h₂ h₃
    rw [byteAt, hsame, ← hg, hL.builds.mem g (by simp [hgk]) (by simp [hgk]) _ (by omega)
      (by omega)]
    exact h₄ _ (by omega)

/-- A file is accepted when all its segments are loaded and its entry point is not 0. -/
theorem loadFile_ne_zero {l : Loader} {elf size pml4 : Nat}
    (hmagic : validateElfFile l.phys.mem elf = true)
    (hsize : (ePhoff l.phys.mem elf + ePhnum l.phys.mem elf * 56) % 2 ^ 64 ≤ size)
    (hsegs : (loadSegments elf pml4 (List.range (ePhnum l.phys.mem elf)) 0 l).1 = true)
    (hentry : (loadFile l (some (elf, size)) pml4).2.phys.mem (elf + 26) ≠ 0) :
    (loadFile l (some (elf, size)) pml4).1 ≠ 0 := by
  have hrun : loadFile l (some (elf, size)) pml4 =
      (eEntry (loadSegments elf pml4 (List.range (ePhnum l.phys.mem elf)) 0 l).2.phys.mem elf,
        (loadSegments elf pml4 (List.range (ePhnum l.phys.mem elf)) 0 l).2) := by
    simp only [loadFile, hmagic, Bool.true_eq_false, if_false, if_neg (Nat.not_lt.mpr hsize), hsegs,
      if_true]
  rw [hrun] at hentry ⊢
  generalize (loadSegments elf pml4 (List.range (ePhnum l.phys.mem elf)) 0 l).2.phys.mem = m
    at hentry
  -- the third byte of `e_entry`
  intro hzero
  have hlt := read64_lt m (elf + 24)
  simp only [eEntry, readWord] at hzero
  rw [Nat.mod_eq_of_lt (by omega)] at hzero
  unfold read64 at hzero
  have hbyte : (m (elf + 24 + 2)).toNat = 0 := by omega
  exact hentry (UInt8.toNat_inj.mp hbyte)

/-! ### Two files -/

/-- An executable with one loadable segment of `sz` bytes, at offset `off` of the file and
virtual address `0x400000 + off`. -/
def sampleElf (off sz : UInt8) : List UInt8 :=
  [0x7F, 0x45, 0x4C, 0x46, 2, 1, 1, 0, 0, 0, 0, 0, 0, 0, 0, 0, 2, 0, 0x3E, 0, 1, 0, 0, 0] ++
  [0, 0, 0x40, 0, 0, 0, 0, 0, 64, 0, 0, 0, 0, 0, 0, 0, 0, 0, 0, 0, 0, 0, 0, 0] ++
  [0, 0, 0, 0, 64, 0, 56, 0, 1, 0, 0, 0, 0, 0, 0, 0] ++
  [1, 0, 0, 0, 5, 0, 0, 0, off, 0, 0, 0, 0, 0, 0, 0, off, 0, 0x40, 0, 0, 0, 0, 0] ++
  [off, 0, 0x40, 0, 0, 0, 0, 0, sz, 0, 0, 0, 0, 0, 0, 0, sz, 0, 0, 0, 0, 0, 0, 0] ++
  [0, 16, 0, 0, 0, 0, 0, 0]

/-- The file at `0x2000` in a memory whose frames 8 to 15 are free. -/
def sampleLoader (off sz : UInt8) : Loader where
  phys :=
    { mem := fun x => if 0x2000 ≤ x then (sampleElf off sz).getD (x - 0x2000) 0 else 0
      availFrames := fun row => if row = 0 then 0xFF00#64 else 0#64
      exhausted := false
      tasks := fun _ => Task.zeroed }
  mmap := []
  pageNum := 0

theorem sampleLoader_space (off sz : UInt8) :
    LoadSpace (sampleLoader off sz).phys 0x2000 120 0x1000 := by
  have hz : ∀ x, 0x1000 ≤ x → x < 0x1000 + 4096 → (sampleLoader off sz).phys.mem x = 0 :=
    fun x _ hx => if_neg (by omega)
  have hentry : ∀ i < 512, entry (sampleLoader off sz).phys.mem 0x1000 i = 0 := fun i hi =>
    read64_eq_zero fun x hx hx' => hz x (by omega) (by omega)
  refine ⟨wellFormed_of_clear hz ⟨by decide, by decide, ?_⟩, fun x hx hx' => ?_,
    fun v f _ hm _ => ?_⟩
  · simp only [sampleLoader, IsFree]
    decide
  · have hdiv : x / 4096 = 2 := by omega
    rw [hdiv]
    refine ⟨by decide, by simp only [sampleLoader, IsFree]; decide, ?_⟩
    rintro ⟨q, hq, hw⟩
    cases q with
    | nil => simp at hw
    | cons i q =>
      rw [Placement.walk, child_eq_none.mpr (by rw [hentry i (hq.2 i (by simp))])] at hw
      cases hw
  · refine absurd ?_ hm.1
    rw [getPhysicalPageAddr_eq, leaf_emptyRoot (hentry _ (pml4Index_lt v))]
    rfl

theorem sampleLoader_frames (off sz : UInt8) :
    5 ≤ (freeFrames (sampleLoader off sz).phys.availFrames).card := by
  have hsub : ({8, 9, 10, 11, 12} : Finset Nat) ⊆
      freeFrames (sampleLoader off sz).phys.availFrames := by
    intro n hn
    rw [mem_freeFrames]
    simp only [Finset.mem_insert, Finset.mem_singleton] at hn
    simp only [sampleLoader, IsFree]
    rcases hn with rfl | rfl | rfl | rfl | rfl <;> exact ⟨by decide, by decide⟩
  exact Finset.card_le_card hsub

theorem sampleLoader_header {off sz : UInt8}
    (h : elfProgramHdr (sampleLoader off sz).phys.mem 0x2000 0 =
      ⟨1, 5, off.toNat, 0x400000 + off.toNat, sz.toNat, sz.toNat⟩)
    (hn : ePhnum (sampleLoader off sz).phys.mem 0x2000 = 1) (i : Nat) :
    IsLoad (sampleLoader off sz).phys.mem 0x2000 i ↔ i = 0 := by
  unfold IsLoad
  rw [hn]
  constructor
  · intro hi
    omega
  · rintro rfl
    rw [h]
    exact ⟨by decide, rfl⟩

theorem sampleLoader_valid {off sz : UInt8} (hfit : off.toNat + sz.toNat ≤ 120)
    (h : elfProgramHdr (sampleLoader off sz).phys.mem 0x2000 0 =
      ⟨1, 5, off.toNat, 0x400000 + off.toNat, sz.toNat, sz.toNat⟩)
    (hn : ePhnum (sampleLoader off sz).phys.mem 0x2000 = 1)
    (ho : ePhoff (sampleLoader off sz).phys.mem 0x2000 = 64)
    (hm : validateElfFile (sampleLoader off sz).phys.mem 0x2000 = true) :
    ValidElf (sampleLoader off sz).phys.mem 0x2000 120 := by
  have hload := sampleLoader_header h hn
  refine ⟨hm, by decide, by rw [hn, ho], fun i hi => ?_, fun i j hi hj hij => ?_⟩
  · rw [(hload i).mp hi, h]
    refine ⟨hfit, le_refl _, by simp only []; omega, fun k hk => ⟨by simp only at hk ⊢; omega, ?_⟩⟩
    rw [pml4Index_eq]
    simp only at hk ⊢
    omega
  · exact absurd (((hload i).mp hi).trans ((hload j).mp hj).symm) hij

/-- A file whose only segment is the whole file. -/
theorem loadFile_image_whole_file :
    ImageOk (sampleLoader 0 120).phys.mem 0x2000
      (loadFile (sampleLoader 0 120) (some (0x2000, 120)) 0x1000).2.phys 0x1000 := by
  have hh : elfProgramHdr (sampleLoader 0 120).phys.mem 0x2000 0 =
      ⟨1, 5, 0, 0x400000, 120, 120⟩ := by decide +kernel
  have hn : ePhnum (sampleLoader 0 120).phys.mem 0x2000 = 1 := by decide +kernel
  have hload := sampleLoader_header hh hn
  refine loadFile_image (sampleLoader 0 120) 0x2000 120 0x1000
    (sampleLoader_valid (by decide) hh hn (by decide +kernel) (by decide +kernel))
    (sampleLoader_space 0 120) ⟨?_, ?_, ?_, rfl, ?_⟩ (loadFile_ne_zero (by decide +kernel)
      (by decide +kernel) (by decide +kernel) (by decide +kernel))
  · intro i hi
    rw [(hload i).mp hi, hh]
    exact Or.inr ⟨rfl, by decide⟩
  · intro i hi
    rw [(hload i).mp hi, hh]
    exact Or.inl rfl
  · intro i j hi hj hij
    exact absurd (((hload i).mp hi).trans ((hload j).mp hj).symm) hij
  · rw [hn]
    exact sampleLoader_frames 0 120

/-- **The page offset is lost.** The only segment is the byte at offset `0x40` of the file, for
address `0x400040`; the file is valid and is loaded, and the byte at that address is zero. -/
theorem loadFile_loses_page_offset :
    ValidElf (sampleLoader 0x40 1).phys.mem 0x2000 120 ∧
      LoadSpace (sampleLoader 0x40 1).phys 0x2000 120 0x1000 ∧
      (loadFile (sampleLoader 0x40 1) (some (0x2000, 120)) 0x1000).1 ≠ 0 ∧
      ¬ ImageOk (sampleLoader 0x40 1).phys.mem 0x2000
        (loadFile (sampleLoader 0x40 1) (some (0x2000, 120)) 0x1000).2.phys 0x1000 := by
  have hh : elfProgramHdr (sampleLoader 0x40 1).phys.mem 0x2000 0 =
      ⟨1, 5, 0x40, 0x400040, 1, 1⟩ := by decide +kernel
  have hn : ePhnum (sampleLoader 0x40 1).phys.mem 0x2000 = 1 := by decide +kernel
  have hfile : (sampleLoader 0x40 1).phys.mem (0x2000 + 0x40 + 0) = 1 := by decide +kernel
  have hret : (loadFile (sampleLoader 0x40 1) (some (0x2000, 120)) 0x1000).1 ≠ 0 :=
    loadFile_ne_zero (by decide +kernel) (by decide +kernel) (by decide +kernel)
      (by decide +kernel)
  refine ⟨sampleLoader_valid (by decide) hh hn (by decide +kernel) (by decide +kernel),
    sampleLoader_space _ _, hret, ?_⟩
  -- frame 9 is mapped, and the byte was copied to its beginning
  have hlook :
      (loadFile (sampleLoader 0x40 1) (some (0x2000, 120)) 0x1000).2.phys.getPhysicalPageAddr
        0x400040 0x1000 = 0x9007 := by decide +kernel
  have hzero :
      (loadFile (sampleLoader 0x40 1) (some (0x2000, 120)) 0x1000).2.phys.mem 0x9040 = 0 := by
    decide +kernel
  generalize (loadFile (sampleLoader 0x40 1) (some (0x2000, 120)) 0x1000).2.phys = s' at *
  intro himage
  have h0 := (himage 0 ((sampleLoader_header hh hn 0).mpr rfl) 0 (by rw [hh]; decide)).1
  rw [hh] at h0
  simp only [Nat.add_zero, Mapped, byteAt, hlook] at h0
  have hbyte := h0 ⟨by decide, trivial⟩
  rw [show (0x9007 &&& frame) + 0x400040 % 4096 = 0x9040 by decide, hzero] at hbyte
  simp only [Nat.add_zero, Nat.lt_one_iff, if_true] at hfile hbyte
  rw [hfile] at hbyte
  exact absurd hbyte (by decide)

end Sbunix
