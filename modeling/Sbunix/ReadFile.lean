import Sbunix.Descriptors

/-!
# Reading files

`readFile` copies from the current offset of a descriptor up to the first NUL byte. What a
sequence of calls delivers is therefore the string at the start address of the file
(`readMany_eq`), and that is the file exactly if the file is not empty, has no NUL byte in it, and
is followed by one (`readFile_content_iff`).
-/

namespace Sbunix.Files

open ByteMem

variable {m : Mem} {ar : Archive} {s s' : Files} {task n start : Nat} {fd r : Int}
  {content : List UInt8} {pre post : List Entry} {e : Entry} {d : FileDescriptor}

/-- A sequence of calls of `readFile` on one descriptor: the bytes they deliver, and the sum of
the values they return. -/
def readMany (m : Mem) (task : Nat) (fd : Int) : Files → List Int → Option (List UInt8 × Int × Files)
  | s, [] => some ([], 0, s)
  | s, count :: counts => do
    let (bytes, value, s) ← s.readFile m task fd count
    let (rest, total, s) ← readMany m task fd s counts
    some (bytes ++ rest, value + total, s)

/-- A positive `int`. -/
def IsCount (count : Int) : Prop := 0 < count ∧ count < 2 ^ 31

/-- **Reading the descriptor returns `content`**: what has been delivered is always a beginning of
it, of the length that the returned values say, and a call returns 0 if and only if all of it has
been delivered. -/
def ReadsContent (m : Mem) (s : Files) (task : Nat) (fd : Int) (content : List UInt8) : Prop :=
  ∀ counts : List Int, (∀ count ∈ counts, IsCount count) → ∀ count, IsCount count →
    ∃ delivered total s' bytes value s'', readMany m task fd s counts = some (delivered, total, s') ∧
      s'.readFile m task fd count = some (bytes, value, s'') ∧
      delivered <+: content ∧ total = delivered.length ∧ (value = 0 ↔ delivered = content)

/-- **`readFile`** on an open descriptor. -/
theorem TableOk.readFile_eq (h : s.TableOk task) (hn : 0 < n) (hlt : n < 100)
    (hd : s.slot task n = d) (hname : d.name ≠ []) (count : Int) :
    ∃ s' : Files, s.readFile m task n count = some (memread m d.offset count.toNat,
        ((memread m d.offset count.toNat).length : Int), s') ∧ s'.TableOk task ∧
      s'.slot task n = { d with offset := d.offset + (memread m d.offset count.toNat).length } := by
  have hptr : s.pointer task (n / 5) ≠ 0 := fun h0 => by
    rw [slot, if_pos h0] at hd
    exact hname (by rw [← hd]; rfl)
  have ha0 : s.slotAddr task n ≠ 0 := by
    have := pageAt_ne_zero (h.pages _ hptr).1
    unfold slotAddr
    omega
  have ha : s.getFdAddress task n = some (s.slotAddr task n) := by
    rw [getFdAddress, if_pos (by omega), if_pos hptr]
    rfl
  have hfd : s.fds (s.slotAddr task n) = d := (slot_of_pointer rfl hptr).symm.trans hd
  obtain ⟨hok, hslot⟩ := h.setFd hptr
    (d := { d with offset := d.offset + (memread m d.offset count.toNat).length })
    (hd ▸ h.handles n)
  refine ⟨_, ?_, hok, by rw [hslot, if_pos rfl]⟩
  have h0 : ¬ (n : Int) < 0 := by omega
  have h0' : ¬ (n : Int) = 0 := by omega
  simp only [Files.readFile, if_neg h0, if_neg h0', Int.toNat_natCast, ha, Option.bind_eq_bind,
    Option.bind_some, if_neg ha0, hfd, if_pos hname]

/-- **Many reads are one**: what they deliver is read in one stretch. -/
theorem TableOk.readMany_eq (h : s.TableOk task) (hn : 0 < n) (hlt : n < 100)
    (hd : s.slot task n = d) (hname : d.name ≠ []) (counts : List Int) :
    ∃ s' : Files, readMany m task n s counts =
        some (memread m d.offset (counts.map Int.toNat).sum,
          ((memread m d.offset (counts.map Int.toNat).sum).length : Int), s') ∧ s'.TableOk task ∧
      s'.slot task n = { d with
        offset := d.offset + (memread m d.offset (counts.map Int.toNat).sum).length } := by
  induction counts generalizing s d with
  | nil => exact ⟨s, rfl, h, hd⟩
  | cons count counts ih =>
    obtain ⟨s₁, hs₁, hok₁, hd₁⟩ := h.readFile_eq (m := m) hn hlt hd hname count
    obtain ⟨s₂, hs₂, hok₂, hd₂⟩ := ih hok₁ hd₁ hname
    have happ := memread_append m d.offset count.toNat (counts.map Int.toNat).sum
    rw [List.map_cons, List.sum_cons, ← happ]
    refine ⟨s₂, ?_, hok₂, ?_⟩
    · simp only [readMany, hs₁, hs₂, Option.bind_eq_bind, Option.bind_some, List.length_append,
        Nat.cast_add]
    · rw [hd₂]
      simp only [List.length_append, Nat.add_assoc]

/-- Nothing is read at a NUL byte, and something everywhere else. -/
theorem memread_eq_nil {src k : Nat} (hk : 0 < k) : memread m src k = [] ↔ m src = 0 := by
  obtain ⟨k, rfl⟩ := Nat.exists_eq_succ_of_ne_zero (show k ≠ 0 by omega)
  rw [memread]
  split
  · next h => exact ⟨fun hc => (by cases hc), fun hc => absurd hc h⟩
  · next h => exact ⟨fun _ => not_not.mp h, fun _ => rfl⟩

/-- A read that falls short has met a NUL byte. -/
theorem memread_short {src k : Nat} (h : (memread m src k).length < k) :
    m (src + (memread m src k).length) = 0 := by
  induction k generalizing src with
  | zero => cases h
  | succ k ih =>
    rw [memread] at h ⊢
    split at h
    · next h0 =>
      rw [if_pos h0]
      simp only [List.length_cons] at h ⊢
      rw [show src + ((memread m (src + 1) k).length + 1) =
        src + 1 + (memread m (src + 1) k).length by omega]
      exact ih (by omega)
    · next h0 =>
      rw [if_neg h0]
      exact not_not.mp h0

/-- What is read is what is there, without NUL bytes. -/
theorem slice_memread (m : Mem) (src k : Nat) :
    slice m src (memread m src k).length = memread m src k ∧ 0 ∉ memread m src k := by
  induction k generalizing src with
  | zero => exact ⟨rfl, by simp [memread]⟩
  | succ k ih =>
    rw [memread]
    split
    · next h0 =>
      obtain ⟨h₁, h₂⟩ := ih (src + 1)
      refine ⟨by rw [List.length_cons, slice, h₁], ?_⟩
      simp only [List.mem_cons, not_or]
      exact ⟨fun hc => h0 hc.symm, h₂⟩
    · exact ⟨rfl, by simp⟩

/-- A text without NUL bytes is read as far as the count goes. -/
theorem memread_of_slice {src k : Nat} (hm : slice m src content.length = content)
    (h0 : 0 ∉ content) (hend : m (src + content.length) = 0) :
    memread m src k = content.take k := by
  induction content generalizing src k with
  | nil =>
    cases k with
    | zero => rfl
    | succ k => exact (memread_eq_nil (Nat.succ_pos k)).mpr hend
  | cons c content ih =>
    rw [List.length_cons, slice, List.cons.injEq] at hm
    cases k with
    | zero => rfl
    | succ k =>
      have hc : m src ≠ 0 := fun hc => h0 (by rw [← hm.1, hc]; exact List.mem_cons_self)
      rw [memread, if_pos hc, List.take_succ_cons, hm.1,
        ih hm.2 (fun hc => h0 (List.mem_cons_of_mem c hc))
          (by rw [← hend, List.length_cons]; congr 1; omega)]

/-- **A descriptor reads back a content** exactly if memory has it at the offset, as a string. -/
theorem TableOk.readsContent_iff (h : s.TableOk task) (hn : 0 < n) (hlt : n < 100)
    (hd : s.slot task n = d) (hname : d.name ≠ []) (hlen : content.length < 2 ^ 31 - 1) :
    ReadsContent m s task n content ↔
      slice m d.offset content.length = content ∧ 0 ∉ content ∧
        m (d.offset + content.length) = 0 := by
  constructor
  · intro hr
    -- one call that asks for more than there is, and one behind it
    have hcount : IsCount ((content.length : Int) + 1) := ⟨by omega, by omega⟩
    obtain ⟨delivered, total, s₁, bytes, value, s₂, hs₁, hs₂, hpre, -, hval⟩ :=
      hr [(content.length : Int) + 1] (fun c hc => List.mem_singleton.mp hc ▸ hcount) 1
        ⟨by decide, by decide⟩
    obtain ⟨s₁', hs₁', hok₁, hd₁⟩ := h.readMany_eq (m := m) hn hlt hd hname
      [(content.length : Int) + 1]
    have hsum : ([(content.length : Int) + 1].map Int.toNat).sum = content.length + 1 := by
      simp only [List.map_cons, List.map_nil, List.sum_cons, List.sum_nil]
      omega
    rw [hsum] at hs₁' hd₁
    obtain ⟨hgot, hrest⟩ := Prod.mk.inj (Option.some.inj (hs₁.symm.trans hs₁'))
    obtain ⟨-, hs⟩ := Prod.mk.inj hrest
    rw [hs] at hs₂
    obtain ⟨s₂', hs₂', -⟩ := hok₁.readFile_eq (m := m) hn hlt hd₁ hname 1
    obtain ⟨-, hrest⟩ := Prod.mk.inj (Option.some.inj (hs₂.symm.trans hs₂'))
    obtain ⟨hv, -⟩ := Prod.mk.inj hrest
    -- the long call has stopped at a NUL byte
    rw [hgot] at hpre hval
    have hlen' := hpre.length_le
    have hstop : m (d.offset + (memread m d.offset (content.length + 1)).length) = 0 :=
      memread_short (by omega)
    have hall : memread m d.offset (content.length + 1) = content := hval.mp (by
      rw [hv, (memread_eq_nil (by decide)).mpr hstop]
      rfl)
    rw [hall] at hstop
    obtain ⟨hslice, hzero⟩ := slice_memread m d.offset (content.length + 1)
    rw [hall] at hslice hzero
    exact ⟨hslice, hzero, hstop⟩
  · rintro ⟨hm, h0, hend⟩ counts hcounts count hcount
    obtain ⟨s₁, hs₁, hok₁, hd₁⟩ := h.readMany_eq (m := m) hn hlt hd hname counts
    obtain ⟨s₂, hs₂, -⟩ := hok₁.readFile_eq (m := m) hn hlt hd₁ hname count
    refine ⟨_, _, s₁, _, _, s₂, hs₁, hs₂, ?_, rfl, ?_⟩
    · rw [memread_of_slice hm h0 hend]
      exact List.take_prefix _ _
    · rw [memread_of_slice hm h0 hend]
      set k := (counts.map Int.toNat).sum with hk
      have hpos : 0 < count.toNat := by
        have := hcount.1
        omega
      rw [Int.natCast_eq_zero, List.length_eq_zero_iff, memread_eq_nil hpos]
      constructor
      · intro hz
        by_contra hne
        -- the byte would be one of the content
        have hlt : (content.take k).length < content.length := by
          rw [List.length_take]
          have : ¬ content.length ≤ k := fun hc => hne (List.take_of_length_le hc)
          omega
        exact h0 (hm ▸ mem_slice.mpr ⟨_, hlt, hz⟩)
      · intro hall
        rw [hall]
        exact hend

/-- **What `openFile` returns** is a slot with the name and the start that it has found. -/
theorem openFile_slot (h : s.TableOk task) {cwd file : List UInt8}
    (hs : s.openFile m ar task cwd file = some (fd, s')) (hfd : 0 ≤ fd)
    (hx : s'.phys.exhausted = false) :
    ∃ (n start : Nat) (name : List UInt8), fd = n ∧ 0 < n ∧ n < 100 ∧
      resolveFile m ar cwd file = some (start, name) ∧ s'.TableOk task ∧
      s'.slot task n = ⟨start, start, [], name, 0⟩ := by
  obtain ⟨⟨rfl, -⟩, -⟩ | ⟨start, name, -, -, hres, hr, rfl⟩ := openFile_cases hs
  · omega
  · obtain ⟨hok, ⟨n, a, hfst, hn, hlt, -, -, -, hslot⟩ | ⟨hnone, -⟩⟩ :=
      h.openSlot_cases (fun _ => Or.inl rfl) hx
    · rw [hfst, Option.map_some, Option.getD_some] at hr
      exact ⟨n, start, name, hr, by omega, hlt, hres, hok, by rw [hslot, if_pos rfl]⟩
    · rw [hnone, Option.map_none, Option.getD_none] at hr
      omega

/-- **The byte behind a content** is NUL exactly if the content does not fill its last block or is
the last of the archive: the name of the next header follows a full block. -/
theorem end_eq_zero_iff {a : Nat} (h : Laid m ar.finish a (e :: post)) :
    m (a + 512 + e.content.length) = 0 ↔ e.content.length % 512 ≠ 0 ∨ post = [] := by
  obtain ⟨-, -, hpad, hrest⟩ := h
  by_cases hmod : e.content.length % 512 = 0
  · have hfull : padded e.content.length = e.content.length := by
      unfold padded
      omega
    rw [hfull] at hrest
    cases post with
    | nil => exact ⟨fun _ => Or.inr rfl, fun _ => hrest.2 _ (le_refl _) (by have := hrest.1; omega)⟩
    | cons e' post =>
      -- the first character of the next name
      have hne : m (a + 512 + e.content.length) ≠ 0 := hrest.1.first_ne_zero
      exact ⟨fun hc => absurd hc hne, fun hc => hc.elim (absurd hmod) fun hc => by cases hc⟩
  · refine ⟨fun _ => Or.inl hmod, fun _ => hpad _ (le_refl _) ?_⟩
    unfold padded
    omega

/-- **Reading a file returns the file** exactly if the file is not empty, no byte of it is NUL, and
it does not fill its last block or is the last file of the archive. -/
theorem readFile_content_iff (h : s.TableOk task)
    (hlaid : Laid m ar.finish ar.start (pre ++ e :: post)) (hk : kernbase ≤ ar.start)
    (hf : ar.finish < 2 ^ 64) (hfirst : ∀ e' ∈ pre, e'.name ≠ e.name) (hroot : e.name ≠ [slash])
    {cwd file : List UInt8} (hres : resolveFile m ar cwd file = some (start, e.name))
    (hs : s.openFile m ar task cwd file = some (fd, s')) (hfd : 0 ≤ fd)
    (hx : s'.phys.exhausted = false) :
    ReadsContent m s' task fd e.content ↔
      e.content ≠ [] ∧ 0 ∉ e.content ∧ (e.content.length % 512 ≠ 0 ∨ post = []) := by
  obtain ⟨n, start', name, rfl, hn, hlt, hres', hok, hslot⟩ := openFile_slot h hs hfd hx
  obtain ⟨rfl, rfl⟩ := Prod.mk.inj (Option.some.inj (hres.symm.trans hres'))
  obtain ⟨a, hle, hL, ha⟩ := getFileAddress_laid hlaid hk hf hfirst
  have hstart := Option.some.inj
    ((getFileAddress_of_resolveFile hres hroot).symm.trans ha)
  have hlen : e.content.length < 2 ^ 31 - 1 := by
    have h1 := hL.2.2.2.lt
    have h2 := le_padded e.content.length
    unfold kernbase at hk
    omega
  rw [hok.readsContent_iff hn hlt hslot hL.1.nonempty hlen]
  by_cases hnil : e.content = []
  · -- the descriptor is at the header, whose first byte is that of the name
    rw [if_pos hnil] at hstart
    refine ⟨fun hc => ?_, fun hc => absurd hnil hc.1⟩
    exact absurd hc.2.2 (by rw [hnil, hstart]; exact hL.1.first_ne_zero)
  · rw [if_neg hnil] at hstart
    simp only [hstart, end_eq_zero_iff hL, hL.2.1, true_and, ne_eq, hnil, not_false_eq_true]

/-! ### Two archives with one file -/

/-- The file `a`, with the content `content` of at most one byte, alone in an archive at `a`. -/
def oneFile (content : Option UInt8) (a x : Nat) : UInt8 :=
  if x = a then 97
  else if x = a + 124 then if content.isSome then 49 else 0
  else if x = a + 512 then content.getD 0
  else 0

theorem oneFile_of_ne (content : Option UInt8) {a x : Nat} (h1 : x ≠ a) (h2 : x ≠ a + 124)
    (h3 : x ≠ a + 512) : oneFile content a x = 0 := by
  rw [oneFile, if_neg h1, if_neg h2, if_neg h3]

theorem oneFile_content (content : Option UInt8) (a : Nat) :
    oneFile content a (a + 512) = content.getD 0 := by
  rw [oneFile, if_neg (by omega), if_neg (by omega), if_pos rfl]

theorem toInteger_of_zero {a : Nat} {num : Int} (h : m a = 0) (k : Nat) :
    toInteger m k a num = num := by
  cases k with
  | zero => rfl
  | succ k => rw [toInteger, if_neg (not_not.mpr h)]

/-- The digit `1`. -/
theorem toInteger_one {a : Nat} (h : m a = 49) (hend : m (a + 1) = 0) (k : Nat) :
    toInteger m (k + 1) a 0 = 1 := by
  have hne : (49 : UInt8) ≠ 0 := by decide
  have hdigit : ((0 : Int) * 8 + (charInt 49 - 48)).bmod (2 ^ 32) = 1 := by decide
  rw [toInteger, h, if_pos hne, hdigit]
  exact toInteger_of_zero hend k

theorem header_oneFile (content : Option UInt8) (a : Nat) :
    Header (oneFile content a) a ⟨[97], content.toList⟩ := by
  have hname : oneFile content a a = 97 := by rw [oneFile, if_pos rfl]
  have hnul : oneFile content a (a + 1) = 0 :=
    oneFile_of_ne content (by omega) (by omega) (by omega)
  have hsize : oneFile content a (a + 124) = if content.isSome then 49 else 0 := by
    rw [oneFile, if_neg (by omega), if_pos rfl]
  refine ⟨?_, fun c hc => ?_, List.cons_ne_nil _ _, ?_⟩
  · rw [strcmp, strcmp, hname, hnul]
    rfl
  · rw [List.mem_singleton.mp hc]
    decide
  · rw [entrySize]
    cases content with
    | none => exact toInteger_of_zero hsize 512
    | some c =>
      have hend : oneFile (some c) a (a + 124 + 1) = 0 :=
        oneFile_of_ne _ (by omega) (by omega) (by omega)
      exact toInteger_one hsize hend 511

theorem laid_oneFile (content : Option UInt8) (a : Nat) :
    Laid (oneFile content a) (a + 2048) a [⟨[97], content.toList⟩] := by
  have hlen : content.toList.length ≤ 1 := by
    cases content with
    | none => exact Nat.zero_le 1
    | some c => exact le_refl 1
  have hzero : ∀ x, a + 512 + content.toList.length ≤ x → oneFile content a x = 0 := fun x hx => by
    by_cases h : x = a + 512
    · cases content with
      | none => rw [h, oneFile_content, Option.getD_none]
      | some c =>
        rw [Option.toList_some, List.length_singleton] at hx
        omega
    · exact oneFile_of_ne content (by omega) (by omega) h
  have hle := le_padded content.toList.length
  have hpad : padded content.toList.length ≤ 512 := by
    unfold padded
    omega
  refine ⟨header_oneFile content a, ?_, fun x hx _ => hzero x hx, ?_, fun x hx _ => hzero x ?_⟩
  · cases content with
    | none => rfl
    | some c =>
      have hc := oneFile_content (some c) a
      simp only [Option.toList_some, List.length_singleton, slice, hc, Option.getD_some]
  · dsimp only
    omega
  · dsimp only at hx ⊢
    omega

/-- Where the archive is. -/
def oneArchive : Archive := ⟨kernbase + 0x200000, kernbase + 0x200000 + 2048⟩

/-- A file with the byte `x` in it reads back. -/
theorem readFile_content_x : ∃ s', newFiles.openFile (oneFile (some 120) oneArchive.start) oneArchive
    (kernbase + 0x3000) [] [slash, 97] = some (3, s') ∧
      ReadsContent (oneFile (some 120) oneArchive.start) s' (kernbase + 0x3000) 3 [120] := by
  obtain ⟨s', hs', hx⟩ : ∃ s', newFiles.openFile (oneFile (some 120) oneArchive.start) oneArchive
      (kernbase + 0x3000) [] [slash, 97] = some (3, s') ∧ s'.phys.exhausted = false :=
    ⟨_, rfl, rfl⟩
  have hres : resolveFile (oneFile (some 120) oneArchive.start) oneArchive [] [slash, 97] =
      some (kernbase + 0x200200, [97]) := by rfl
  have hlaid : Laid (oneFile (some 120) oneArchive.start) oneArchive.finish oneArchive.start
      ([] ++ ⟨[97], [120]⟩ :: []) := laid_oneFile (some 120) oneArchive.start
  refine ⟨s', hs', (readFile_content_iff newFiles_ok hlaid (by decide) (by decide)
    (fun e' he => by cases he) (by decide) hres hs' (by decide) hx).mpr ?_⟩
  exact ⟨by decide, by decide, Or.inr rfl⟩

/-- **An empty file reads as its header.** -/
theorem empty_file_reads_header :
    Laid (oneFile none oneArchive.start) oneArchive.finish oneArchive.start [⟨[97], []⟩] ∧
      ∃ s', newFiles.openFile (oneFile none oneArchive.start) oneArchive (kernbase + 0x3000) [] [slash, 97] =
          some (3, s') ∧ ¬ ReadsContent (oneFile none oneArchive.start) s' (kernbase + 0x3000) 3 [] := by
  refine ⟨laid_oneFile none _, ?_⟩
  obtain ⟨s', s'', hs', hs''⟩ : ∃ s' s'', newFiles.openFile (oneFile none oneArchive.start) oneArchive
      (kernbase + 0x3000) [] [slash, 97] = some (3, s') ∧
      s'.readFile (oneFile none oneArchive.start) (kernbase + 0x3000) 3 1 = some ([97], 1, s'') :=
    ⟨_, _, rfl, rfl⟩
  refine ⟨s', hs', fun hr => ?_⟩
  -- the first call ought to return 0
  obtain ⟨delivered, total, t, bytes, value, t', hmany, hone, -, -, hval⟩ :=
    hr [] (fun c hc => by cases hc) 1 ⟨by decide, by decide⟩
  obtain ⟨rfl, hrest⟩ := Prod.mk.inj (Option.some.inj hmany)
  obtain ⟨-, rfl⟩ := Prod.mk.inj hrest
  obtain ⟨-, hrest⟩ := Prod.mk.inj (Option.some.inj (hone.symm.trans hs''))
  obtain ⟨hv, -⟩ := Prod.mk.inj hrest
  exact absurd (hv.symm.trans (hval.mpr rfl)) (by decide)

end Sbunix.Files
