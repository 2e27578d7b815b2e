import Sbunix.Defs
import Sbunix.Lib.Runs
import Sbunix.Lib.Slice

/-!
# Terminal input

The input buffer of `sys/idt.c`: a page with two cursors, a wrap indicator and a count of unread
lines. `writeChar` and `handleBackspace` are called by the keyboard interrupt, `readChar` by
`readFile` on descriptor 0.

A session (`Session`) adds to the buffer what has been typed and what has been delivered so far.
The reference is a queue of characters: what is typed is appended, a backspace takes the last
character of an unfinished line away, and reading takes from the front, up to the last newline.

* `Holds` — the characters that the buffer holds, read off the page in order;
* `terminal_faithful` — the buffer is that queue in every run in which the writer comes to the end
  of the page only while no line is pending, and nothing is erased across it;
* `terminal_loses_char` — a session in which the writer takes a character away from the reader.
-/

namespace Sbunix

open ByteMem Runs

/-- The variables behind the input buffer. -/
structure Terminal where
  mem : Mem
  stdStart : Nat
  writePosition : Nat
  readPosition : Nat
  bufferEnd : Nat
  indicator : Nat
  readline : Int

namespace Terminal

/-- `set_input_buf`. -/
def setInputBuf (mem : Mem) (page : Nat) : Terminal :=
  { mem := mem
    stdStart := page
    writePosition := page
    readPosition := page
    bufferEnd := page + 0x1000
    indicator := 0
    readline := 0 }

/-- The condition under which `readChar` takes a character. -/
def Readable (t : Terminal) : Prop :=
  ((t.readPosition < t.writePosition ∧ t.indicator = 0) ∨
    (t.writePosition < t.readPosition ∧ t.indicator = 1)) ∧ 0 < t.readline

instance (t : Terminal) : Decidable t.Readable := inferInstanceAs (Decidable (_ ∧ _))

/-- `readChar`. The reader wraps one byte behind the end of the page. -/
def readChar (t : Terminal) : UInt8 × Terminal :=
  if t.Readable then
    let c := t.mem t.readPosition
    let t' : Terminal :=
      { t with
        mem := write8 t.mem t.readPosition 0
        readPosition := t.readPosition + 1
        readline := if c = 10 then t.readline - 1 else t.readline }
    (c, if t'.readPosition = t.bufferEnd + 1 then
      { t' with readPosition := t.stdStart, indicator := 0 } else t')
  else (0, t)

/-- `*writePosition = c; writePosition++;`. -/
def store (t : Terminal) (c : UInt8) : Terminal :=
  { t with mem := write8 t.mem t.writePosition c, writePosition := t.writePosition + 1 }

/-- `writeChar`. The condition of the last warning assigns to `indicator`. -/
def writeChar (t : Terminal) (c : UInt8) (specialCharacter : Int) : Terminal :=
  let t :=
    if specialCharacter = 1 then
      let t := t.store 0x5E
      if t.writePosition = t.bufferEnd then { t with writePosition := t.stdStart, indicator := 1 }
      else t
    else t
  let t := t.store c
  let t :=
    if t.writePosition = t.bufferEnd then
      let t := t.readChar.2
      if t.readPosition ≠ t.stdStart then { t with writePosition := t.stdStart, indicator := 1 }
      else t
    else t
  let t := if t.writePosition + 1 = t.readPosition then { t with indicator := 1 } else t
  if c = 10 then { t with readline := intSucc t.readline } else t

/-- `handleBackspace`. -/
def handleBackspace (t : Terminal) : Terminal :=
  let t :=
    if t.writePosition = t.readPosition then { t with mem := write8 t.mem t.writePosition 0 } else t
  let t :=
    if t.readPosition < t.writePosition ∧ t.indicator = 0 ∧ t.mem (t.writePosition - 1) ≠ 10 then
      let t := { t with
        writePosition :=
          if t.writePosition = t.stdStart then t.stdStart else t.writePosition - 1 }
      { t with mem := write8 t.mem t.writePosition 0 }
    else t
  if t.writePosition < t.readPosition ∧ t.indicator = 1 ∧ t.mem (t.writePosition - 1) ≠ 10 then
    let t :=
      if t.writePosition = t.stdStart then { t with writePosition := t.bufferEnd, indicator := 0 }
      else { t with writePosition := t.writePosition - 1 }
    { t with mem := write8 t.mem t.writePosition 0 }
  else t

end Terminal

/-! ### Sessions -/

/-- What happens at the terminal. -/
inductive Key
  | typed (c : UInt8)
  | backspace
  | read

/-- The buffer, the text typed so far with its corrections, and the characters that `readChar`
has delivered. -/
structure Session where
  terminal : Terminal
  text : List UInt8
  delivered : List UInt8

/-- A backspace on the text: the last character goes, unless its line is finished. -/
def rubOut (text : List UInt8) : List UInt8 :=
  match text.getLast? with
  | some c => if c = 10 then text else text.dropLast
  | none => []

namespace Session

def start (mem : Mem) (page : Nat) : Session := ⟨.setInputBuf mem page, [], []⟩

def step (s : Session) : Key → Option Session
  | .typed c => some { s with terminal := s.terminal.writeChar c 0, text := s.text ++ [c] }
  | .backspace => some { s with terminal := s.terminal.handleBackspace, text := rubOut s.text }
  | .read =>
    let r := s.terminal.readChar
    some { s with
      terminal := r.2
      delivered := if r.1 = 0 then s.delivered else s.delivered ++ [r.1] }

/-- Characters are not NUL, and fewer than 4096 of them are unread at once. -/
def Admits (s : Session) : Key → Prop
  | .typed c => c ≠ 0 ∧ s.text.length + 1 < s.delivered.length + 4096
  | _ => True

/-- **The step stays clear of the end of the page**: the writer fills its last byte only while no
line is pending and the byte behind the page is NUL, and no character before it is erased from
behind. -/
def Clear (s : Session) : Key → Prop
  | .typed _ => s.terminal.writePosition + 1 = s.terminal.bufferEnd →
      s.terminal.readline = 0 ∧ s.terminal.mem s.terminal.bufferEnd = 0
  | .backspace => s.terminal.indicator = 1 → s.terminal.writePosition ≠ s.terminal.stdStart
  | .read => True

instance (s : Session) : DecidablePred s.Admits
  | .typed _ => inferInstanceAs (Decidable (_ ∧ _))
  | .backspace => isTrue trivial
  | .read => isTrue trivial

instance (s : Session) : DecidablePred s.Clear
  | .typed _ => inferInstanceAs (Decidable (_ → _))
  | .backspace => inferInstanceAs (Decidable (_ → _))
  | .read => isTrue trivial

/-- **A faithful line queue.** What is typed has either been delivered, in order, or is unread;
`readline` counts the unread newlines; without one nothing is delivered, and with one the next
character is, on the first or the second call. -/
def Faithful (s : Session) : Prop :=
  ∃ unread, s.text = s.delivered ++ unread ∧ s.terminal.readline = unread.count 10 ∧
    (s.terminal.readline = 0 → s.terminal.readChar = (0, s.terminal)) ∧
    (0 < s.terminal.readline → ∃ c rest, unread = c :: rest ∧ c ≠ 0 ∧
      (s.terminal.readChar.1 = c ∨
        s.terminal.readChar.1 = 0 ∧ s.terminal.readChar.2.readChar.1 = c))

end Session

/-! ### What the buffer holds -/

variable {t t' : Terminal} {unread : List UInt8} {c : UInt8}

/-- **The contents of the buffer**: the bytes from the reader to the writer, across the end of the
page when the writer has wrapped. -/
structure Terminal.Holds (t : Terminal) (unread : List UInt8) : Prop where
  page : t.bufferEnd = t.stdStart + 0x1000
  shape :
    (t.indicator = 0 ∧ t.stdStart ≤ t.readPosition ∧ t.readPosition ≤ t.writePosition ∧
      t.writePosition < t.bufferEnd ∧
      unread = slice t.mem t.readPosition (t.writePosition - t.readPosition)) ∨
    (t.indicator = 1 ∧ t.stdStart ≤ t.writePosition ∧ t.writePosition < t.readPosition ∧
      t.readPosition ≤ t.bufferEnd ∧ t.mem t.bufferEnd = 0 ∧
      unread = slice t.mem t.readPosition (t.bufferEnd - t.readPosition) ++
        slice t.mem t.stdStart (t.writePosition - t.stdStart))
  lines : t.readline = unread.count 10
  chars : ∀ c ∈ unread, c ≠ 0

namespace Terminal

theorem holds_setInputBuf (mem : Mem) (page : Nat) : (setInputBuf mem page).Holds [] := by
  refine ⟨rfl, Or.inl ⟨rfl, Nat.le_refl _, Nat.le_refl _, ?_, ?_⟩, rfl, by simp⟩
  · exact Nat.lt_add_of_pos_right (by decide)
  · rw [setInputBuf, Nat.sub_self, slice_zero]

/-- Without a line, `readChar` does nothing. -/
theorem readChar_idle (h : t.readline = 0) : t.readChar = (0, t) := by
  rw [readChar, if_neg fun hr => absurd hr.2 (by omega)]

/-- With a line, the buffer is readable. -/
theorem Holds.readable (h : t.Holds unread) (hl : 0 < t.readline) : t.Readable := by
  refine ⟨?_, hl⟩
  rcases h.shape with ⟨hi, -, hle, -, hu⟩ | ⟨hi, -, hlt, -⟩
  · refine Or.inl ⟨?_, hi⟩
    by_contra hc
    have hz : t.writePosition - t.readPosition = 0 := by omega
    rw [hz, slice_zero] at hu
    have := h.lines
    rw [hu] at this
    simp at this
    omega
  · exact Or.inr ⟨hlt, hi⟩

theorem intSucc_of_lt {n : Int} (h : 0 ≤ n) (h' : n < 2 ^ 31 - 1) : intSucc n = n + 1 := by
  rw [intSucc, Int.bmod_eq_of_le] <;> omega

/-- **`writeChar`** away from the end of the page stores the character and counts lines. -/
theorem writeChar_inside (hend : t.writePosition + 1 ≠ t.bufferEnd)
    (hi : t.writePosition + 2 = t.readPosition → t.indicator = 1) :
    t.writeChar c 0 =
      { t with
        mem := write8 t.mem t.writePosition c
        writePosition := t.writePosition + 1
        readline := if c = 10 then intSucc t.readline else t.readline } := by
  have h0 : ¬ (0 : Int) = 1 := by decide
  simp only [writeChar, store, if_neg h0, if_neg hend]
  by_cases hw : t.writePosition + 1 + 1 = t.readPosition
  · simp only [if_pos hw, hi hw]
    split <;> rfl
  · simp only [if_neg hw]
    split <;> rfl

/-- … and at the end of the page, while no line is pending, it wraps. -/
theorem writeChar_wrap (hend : t.writePosition + 1 = t.bufferEnd) (hl : t.readline = 0)
    (hr : t.readPosition ≠ t.stdStart) :
    t.writeChar c 0 =
      { t with
        mem := write8 t.mem t.writePosition c
        writePosition := t.stdStart
        indicator := 1
        readline := if c = 10 then 1 else 0 } := by
  have h0 : ¬ (0 : Int) = 1 := by decide
  have hidle : (t.store c).readChar = (0, t.store c) := readChar_idle hl
  simp only [store] at hidle
  simp only [writeChar, store, if_neg h0, if_pos hend, hidle, if_pos hr]
  by_cases hw : t.stdStart + 1 = t.readPosition
  · simp only [if_pos hw, hl]
    split <;> rfl
  · simp only [if_neg hw, hl]
    split <;> rfl

/-- **A typed character** goes to the end. -/
theorem Holds.writeChar (h : t.Holds unread) (hc : c ≠ 0) (hlen : unread.length + 1 < 4096)
    (hclear : t.writePosition + 1 = t.bufferEnd → t.readline = 0 ∧ t.mem t.bufferEnd = 0) :
    (t.writeChar c 0).Holds (unread ++ [c]) := by
  have hpage := h.page
  have hlines : (0 : Int) ≤ t.readline ∧ t.readline < 2 ^ 31 - 1 := by
    have := List.count_le_length (a := (10 : UInt8)) (l := unread)
    rw [h.lines]
    omega
  -- `readline` counts the newlines that are unread
  have hcount : (if c = 10 then intSucc t.readline else t.readline) =
      ((unread ++ [c]).count 10 : Nat) := by
    rw [List.count_append, intSucc_of_lt hlines.1 hlines.2, h.lines]
    by_cases h10 : c = 10
    · rw [if_pos h10, h10]
      simp
    · rw [if_neg h10, List.count_singleton]
      simp [h10]
  have hchars : ∀ d ∈ unread ++ [c], d ≠ 0 := fun d hd => by
    rcases List.mem_append.mp hd with hd | hd
    · exact h.chars d hd
    · rwa [List.mem_singleton.mp hd]
  rcases h.shape with ⟨hi, hs, hle, hw, hu⟩ | ⟨hi, hs, hlt, hr, hz, hu⟩
  · by_cases hend : t.writePosition + 1 = t.bufferEnd
    · -- the writer wraps
      obtain ⟨hl, hz⟩ := hclear hend
      have hul := congrArg List.length hu
      rw [slice_length] at hul
      have hr : t.readPosition ≠ t.stdStart := by omega
      rw [writeChar_wrap hend hl hr]
      refine ⟨hpage, Or.inr ⟨rfl, Nat.le_refl _, ?_, ?_, ?_, ?_⟩, ?_, hchars⟩
      · show t.stdStart < t.readPosition
        omega
      · show t.readPosition ≤ t.bufferEnd
        omega
      · show write8 t.mem t.writePosition c t.bufferEnd = 0
        rw [write8_of_ne (by omega), hz]
      · show _ = slice (write8 t.mem t.writePosition c) t.readPosition
          (t.bufferEnd - t.readPosition) ++ slice (write8 t.mem t.writePosition c) t.stdStart
            (t.stdStart - t.stdStart)
        rw [Nat.sub_self, slice_zero, List.append_nil,
          show t.bufferEnd - t.readPosition = t.writePosition - t.readPosition + 1 by omega,
          slice_succ_right, slice_write8_of_out (by omega), ← hu,
          show t.readPosition + (t.writePosition - t.readPosition) = t.writePosition by omega,
          write8_self]
      · rw [← hcount, hl]
        rfl
    -- the page has room behind the character
    · rw [writeChar_inside hend (by omega)]
      refine ⟨hpage, Or.inl ⟨hi, hs, ?_, ?_, ?_⟩, hcount, hchars⟩
      · show t.readPosition ≤ t.writePosition + 1
        omega
      · show t.writePosition + 1 < t.bufferEnd
        omega
      · show _ = slice (write8 t.mem t.writePosition c) t.readPosition
          (t.writePosition + 1 - t.readPosition)
        rw [show t.writePosition + 1 - t.readPosition = t.writePosition - t.readPosition + 1 by omega,
          slice_succ_right, slice_write8_of_out (by omega), ← hu,
          show t.readPosition + (t.writePosition - t.readPosition) = t.writePosition by omega,
          write8_self]
  · -- behind the reader
    have hul := congrArg List.length hu
    rw [List.length_append, slice_length, slice_length] at hul
    rw [writeChar_inside (by omega) fun _ => hi]
    refine ⟨hpage, Or.inr ⟨hi, ?_, ?_, hr, ?_, ?_⟩, hcount, hchars⟩
    · show t.stdStart ≤ t.writePosition + 1
      omega
    · show t.writePosition + 1 < t.readPosition
      omega
    · show write8 t.mem t.writePosition c t.bufferEnd = 0
      rw [write8_of_ne (by omega), hz]
    · show _ = slice (write8 t.mem t.writePosition c) t.readPosition
        (t.bufferEnd - t.readPosition) ++ slice (write8 t.mem t.writePosition c) t.stdStart
          (t.writePosition + 1 - t.stdStart)
      rw [slice_write8_of_out (by omega),
        show t.writePosition + 1 - t.stdStart = t.writePosition - t.stdStart + 1 by omega,
        slice_succ_right, slice_write8_of_out (by omega),
        show t.stdStart + (t.writePosition - t.stdStart) = t.writePosition by omega,
        write8_self, ← List.append_assoc, ← hu]

/-- **`readChar`** takes the first character. -/
theorem Holds.readChar_next (h : t.Holds unread) (hl : 0 < t.readline)
    (hr : t.readPosition ≠ t.bufferEnd) :
    ∃ c rest, unread = c :: rest ∧ t.readChar.1 = c ∧ t.readChar.2.Holds rest := by
  have hpage := h.page
  have hread : t.readChar = (t.mem t.readPosition,
      { t with
        mem := write8 t.mem t.readPosition 0
        readPosition := t.readPosition + 1
        readline := if t.mem t.readPosition = 10 then t.readline - 1 else t.readline }) := by
    rw [readChar, if_pos (h.readable hl)]
    dsimp only
    rw [if_neg (by omega)]
  rw [hread]
  have hrest : ∀ rest, unread = t.mem t.readPosition :: rest →
      (if t.mem t.readPosition = 10 then t.readline - 1 else t.readline) =
        (rest.count 10 : Nat) ∧ ∀ c ∈ rest, c ≠ 0 := fun rest hu => by
    refine ⟨?_, fun c hc => h.chars c (hu ▸ List.mem_cons_of_mem _ hc)⟩
    have := h.lines
    rw [hu, List.count_cons] at this
    by_cases h10 : t.mem t.readPosition = 10
    · rw [if_pos h10, this, h10]
      simp
    · rw [if_neg h10, this]
      simp [h10]
  rcases h.shape with ⟨hi, hs, hle, hw, hu⟩ | ⟨hi, hs, hlt, hre, hz, hu⟩
  · have hlt : t.readPosition < t.writePosition := by
      rcases (h.readable hl).1 with hlt | hlt
      · exact hlt.1
      · omega
    rw [show t.writePosition - t.readPosition = t.writePosition - (t.readPosition + 1) + 1 by omega,
      slice] at hu
    refine ⟨_, _, hu, rfl, hpage, Or.inl ⟨hi, ?_, hlt, hw, ?_⟩, (hrest _ hu).1,
      (hrest _ hu).2⟩
    · exact Nat.le_succ_of_le hs
    · exact (slice_write8_of_out (by omega)).symm
  · rw [show t.bufferEnd - t.readPosition = t.bufferEnd - (t.readPosition + 1) + 1 by omega,
      slice, List.cons_append] at hu
    refine ⟨_, _, hu, rfl, hpage, Or.inr ⟨hi, hs, ?_, ?_, ?_, ?_⟩,
      (hrest _ hu).1, (hrest _ hu).2⟩
    · exact Nat.lt_succ_of_lt hlt
    · show t.readPosition + 1 ≤ t.bufferEnd
      omega
    · show write8 t.mem t.readPosition 0 t.bufferEnd = 0
      rw [write8_of_ne (by omega), hz]
    · exact (congrArg₂ (· ++ ·) (slice_write8_of_out (by omega))
        (slice_write8_of_out (by omega))).symm

/-- … except at the end of the page, where it takes the byte behind it and turns round. -/
theorem Holds.readChar_turn (h : t.Holds unread) (hl : 0 < t.readline)
    (hr : t.readPosition = t.bufferEnd) :
    t.readChar.1 = 0 ∧ t.readChar.2.Holds unread ∧ t.readChar.2.readline = t.readline ∧
      t.readChar.2.readPosition ≠ t.readChar.2.bufferEnd := by
  have hpage := h.page
  rcases h.shape with ⟨hi, hs, hle, hw, hu⟩ | ⟨hi, hs, hlt, hre, hz, hu⟩
  · omega
  · rw [hr, Nat.sub_self, slice_zero, List.nil_append] at hu
    have h10 : ¬ (0 : UInt8) = 10 := by decide
    have hread : t.readChar = (0, { t with
        mem := write8 t.mem t.bufferEnd 0
        readPosition := t.stdStart
        indicator := 0 }) := by
      rw [readChar, if_pos (h.readable hl)]
      simp only [hr, hz, if_neg h10, if_true]
    rw [hread]
    refine ⟨rfl, ⟨hpage, Or.inl ⟨rfl, Nat.le_refl _, hs, ?_, ?_⟩, h.lines, h.chars⟩, rfl, ?_⟩
    · show t.writePosition < t.bufferEnd
      omega
    · show _ = slice (write8 t.mem t.bufferEnd 0) t.stdStart (t.writePosition - t.stdStart)
      rw [slice_write8_of_out (by omega), hu]
    · show t.stdStart ≠ t.bufferEnd
      omega

end Terminal

/-! ### Backspace -/

theorem rubOut_concat (l : List UInt8) (c : UInt8) :
    rubOut (l ++ [c]) = if c = 10 then l ++ [c] else l := by
  rw [rubOut, List.getLast?_concat, List.dropLast_concat]

theorem count_rubOut (l : List UInt8) : (rubOut l).count 10 = l.count 10 := by
  rcases List.eq_nil_or_concat l with rfl | ⟨l', c, rfl⟩
  · rfl
  · rw [List.concat_eq_append, rubOut_concat]
    split
    · rfl
    · next h => simp [List.count_append, h]

/-- A backspace does not reach behind the unread text. -/
theorem rubOut_append {l r : List UInt8} (h : r = [] → l = [] ∨ l.getLast? = some 10) :
    rubOut (l ++ r) = l ++ rubOut r := by
  rcases List.eq_nil_or_concat r with rfl | ⟨r', c, rfl⟩
  · rcases h rfl with rfl | hl
    · rfl
    · obtain ⟨l', rfl⟩ := List.getLast?_eq_some_iff.mp hl
      simp [rubOut]
  · rw [List.concat_eq_append, ← List.append_assoc, rubOut_concat, rubOut_concat]
    split
    · rw [List.append_assoc]
    · rfl

namespace Terminal

/-- A finished line stays. -/
theorem handleBackspace_finished (hne : t.writePosition ≠ t.readPosition)
    (h10 : t.mem (t.writePosition - 1) = 10) : t.handleBackspace = t := by
  simp only [Terminal.handleBackspace, if_neg hne, h10, ne_eq, not_true_eq_false, and_false,
    if_false]

/-- The character before the writer is erased. -/
theorem handleBackspace_erase (hs : t.writePosition ≠ t.stdStart)
    (h10 : t.mem (t.writePosition - 1) ≠ 10)
    (hdir : t.readPosition < t.writePosition ∧ t.indicator = 0 ∨
      t.writePosition < t.readPosition ∧ t.indicator = 1) :
    t.handleBackspace =
      { t with
        mem := write8 t.mem (t.writePosition - 1) 0
        writePosition := t.writePosition - 1 } := by
  have hne : t.writePosition ≠ t.readPosition := by omega
  rcases hdir with ⟨hlt, hi⟩ | ⟨hlt, hi⟩
  · have hno : ¬ (0 : Nat) = 1 := by decide
    simp only [Terminal.handleBackspace, if_neg hne, if_neg hs, hlt, hi, h10, ne_eq,
      not_false_eq_true, and_self, if_true, hno, false_and, and_false, if_false]
  · have hno : ¬ (1 : Nat) = 0 := by decide
    simp only [Terminal.handleBackspace, if_neg hne, if_neg hs, hlt, hi, h10, ne_eq,
      not_false_eq_true, and_self, if_true, hno, false_and, and_false, if_false]

/-- **`handleBackspace`** takes the last character of an unfinished line away. -/
theorem Holds.handleBackspace (h : t.Holds unread)
    (hclear : t.indicator = 1 → t.writePosition ≠ t.stdStart) :
    t.handleBackspace.Holds (rubOut unread) := by
  have hpage := h.page
  -- what is left when the character before the writer goes
  have herase : ∀ l, unread = l ++ [t.mem (t.writePosition - 1)] →
      t.mem (t.writePosition - 1) ≠ 10 →
      rubOut unread = l ∧ t.readline = (l.count 10 : Nat) ∧ ∀ c ∈ l, c ≠ 0 := fun l hu h10 => by
    refine ⟨by rw [hu, rubOut_concat, if_neg h10], ?_, fun c hc => h.chars c (by simp [hu, hc])⟩
    rw [h.lines, hu, List.count_append, List.count_singleton]
    simp [h10]
  rcases h.shape with ⟨hi, hs, hle, hw, hu⟩ | ⟨hi, hs, hlt, hre, hz, hu⟩
  · have hno : ¬ t.indicator = 1 := by omega
    by_cases heq : t.writePosition = t.readPosition
    · -- nothing to erase
      rw [heq, Nat.sub_self, slice_zero] at hu
      have hlt : ¬ t.readPosition < t.writePosition := by omega
      simp only [Terminal.handleBackspace, if_pos heq, hlt, hno, false_and, and_false, if_false]
      subst hu
      refine ⟨hpage, Or.inl ⟨hi, hs, hle, hw, ?_⟩, h.lines, by simp [rubOut]⟩
      show _ = slice _ t.readPosition (t.writePosition - t.readPosition)
      rw [heq, Nat.sub_self, slice_zero]
      rfl
    · obtain ⟨n, hn⟩ := Nat.exists_eq_add_of_lt (show 0 < t.writePosition - t.readPosition by omega)
      rw [Nat.zero_add] at hn
      rw [hn, slice_succ_right, show t.readPosition + n = t.writePosition - 1 by omega] at hu
      by_cases h10 : t.mem (t.writePosition - 1) = 10
      · rw [handleBackspace_finished heq h10, hu, rubOut_concat, if_pos h10, ← hu]
        exact h
      · obtain ⟨hrub, hlines, hchars⟩ := herase _ hu h10
        rw [handleBackspace_erase (by omega) h10 (Or.inl ⟨by omega, hi⟩), hrub]
        refine ⟨hpage, Or.inl ⟨hi, hs, ?_, ?_, ?_⟩, hlines, hchars⟩
        · show t.readPosition ≤ t.writePosition - 1
          omega
        · show t.writePosition - 1 < t.bufferEnd
          omega
        · show _ = slice (write8 t.mem (t.writePosition - 1) 0) t.readPosition
            (t.writePosition - 1 - t.readPosition)
          rw [slice_write8_of_out (by omega)]
          congr 1
          omega
  · have hws := hclear hi
    obtain ⟨n, hn⟩ := Nat.exists_eq_add_of_lt (show 0 < t.writePosition - t.stdStart by omega)
    rw [Nat.zero_add] at hn
    rw [hn, slice_succ_right, show t.stdStart + n = t.writePosition - 1 by omega,
      ← List.append_assoc] at hu
    by_cases h10 : t.mem (t.writePosition - 1) = 10
    · rw [handleBackspace_finished (by omega) h10, hu, rubOut_concat, if_pos h10, ← hu]
      exact h
    · obtain ⟨hrub, hlines, hchars⟩ := herase _ hu h10
      rw [handleBackspace_erase hws h10 (Or.inr ⟨hlt, hi⟩), hrub]
      refine ⟨hpage, Or.inr ⟨hi, ?_, ?_, hre, ?_, ?_⟩, hlines, hchars⟩
      · show t.stdStart ≤ t.writePosition - 1
        omega
      · show t.writePosition - 1 < t.readPosition
        omega
      · show write8 t.mem (t.writePosition - 1) 0 t.bufferEnd = 0
        rw [write8_of_ne (by omega), hz]
      · show _ = slice (write8 t.mem (t.writePosition - 1) 0) t.readPosition
          (t.bufferEnd - t.readPosition) ++ slice (write8 t.mem (t.writePosition - 1) 0) t.stdStart
            (t.writePosition - 1 - t.stdStart)
        rw [slice_write8_of_out (by omega), slice_write8_of_out (by omega),
          show t.writePosition - 1 - t.stdStart = n by omega]

end Terminal

/-! ### Whole sessions -/

namespace Session

open Terminal

variable {s s' : Session} {mem : Mem} {page : Nat}

/-- **The invariant of a session**: what the buffer holds is what is left of the text, and with no
line in it the delivered text ends with one. -/
def Queued (s : Session) : Prop :=
  ∃ unread, s.text = s.delivered ++ unread ∧ s.terminal.Holds unread ∧
    (s.terminal.readline = 0 → s.delivered = [] ∨ s.delivered.getLast? = some 10)

theorem Queued.step (h : s.Queued) {e : Key} (ha : s.Admits e) (hc : s.Clear e)
    (hs : s.step e = some s') : s'.Queued := by
  obtain ⟨unread, htext, hh, hends⟩ := h
  cases e with
  | typed c =>
    obtain rfl := Option.some.inj hs
    obtain ⟨hc0, hlen⟩ := ha
    rw [htext, List.length_append] at hlen
    have hh' := hh.writeChar hc0 (by omega) hc
    refine ⟨unread ++ [c], by simp [htext], hh', fun hl => hends ?_⟩
    have h₁ := hh.lines
    have h₂ := hh'.lines.symm.trans hl
    rw [List.count_append] at h₂
    omega
  | backspace =>
    obtain rfl := Option.some.inj hs
    have hrub : rubOut (s.delivered ++ unread) = s.delivered ++ rubOut unread :=
      rubOut_append fun hu => hends (by rw [hh.lines, hu]; rfl)
    have hh' := hh.handleBackspace hc
    refine ⟨rubOut unread, by rw [← hrub, ← htext], hh', fun hl => hends ?_⟩
    rw [hh.lines, ← count_rubOut, ← hh'.lines]
    exact hl
  | read =>
    obtain rfl := Option.some.inj hs
    have h0 : (0 : Int) ≤ s.terminal.readline := by
      rw [hh.lines]
      exact Int.natCast_nonneg _
    rcases h0.eq_or_lt with hl | hl
    · -- no line is pending
      simp only [readChar_idle hl.symm, if_true]
      exact ⟨unread, htext, hh, hends⟩
    · by_cases hr : s.terminal.readPosition = s.terminal.bufferEnd
      · obtain ⟨hz, hh', hline, -⟩ := hh.readChar_turn hl hr
        simp only [if_pos hz]
        exact ⟨unread, htext, hh', fun hl' => hends (hline ▸ hl')⟩
      · obtain ⟨c, rest, rfl, rfl, hh'⟩ := hh.readChar_next hl hr
        have hc0 := hh.chars _ List.mem_cons_self
        simp only [if_neg hc0]
        refine ⟨rest, by simp [htext], hh', fun hl' => Or.inr ?_⟩
        -- the last newline has just been delivered
        have h₁ := hh.lines
        have h₂ := hh'.lines.symm.trans hl'
        rw [List.count_cons] at h₁
        have h10 : s.terminal.readChar.1 = 10 := by
          by_contra hne
          simp [hne] at h₁
          omega
        rw [List.getLast?_concat, h10]

/-- A queued session is faithful. -/
theorem Queued.faithful (h : s.Queued) : s.Faithful := by
  obtain ⟨unread, htext, hh, -⟩ := h
  refine ⟨unread, htext, hh.lines, readChar_idle, fun hl => ?_⟩
  by_cases hr : s.terminal.readPosition = s.terminal.bufferEnd
  · obtain ⟨hz, hh', hline, hr'⟩ := hh.readChar_turn hl hr
    obtain ⟨c, rest, rfl, hc, -⟩ := hh'.readChar_next (hline ▸ hl) hr'
    exact ⟨c, rest, rfl, hh.chars c List.mem_cons_self, Or.inr ⟨hz, hc⟩⟩
  · obtain ⟨c, rest, rfl, hc, -⟩ := hh.readChar_next hl hr
    exact ⟨c, rest, rfl, hh.chars c List.mem_cons_self, Or.inl hc⟩

/-- **Terminal input is a faithful line queue** in every session that stays clear of the end of
the page. -/
theorem terminal_faithful (mem : Mem) (page : Nat) {es : List Key}
    (hr : Run Session.step (fun s e => s.Admits e ∧ s.Clear e) (start mem page) es s) :
    s.Faithful :=
  (hr.invariant (I := Queued) ⟨[], rfl, holds_setInputBuf mem page, fun _ => Or.inl rfl⟩
    fun _ _ _ h hok hs => h.step hok.1 hok.2 hs).faithful

/-- A line with a correction. -/
theorem terminal_faithful_line : ∃ s, Run Session.step (fun s e => s.Admits e ∧ s.Clear e)
    (start (fun _ => 0) 0x1000) [.typed 97, .typed 98, .backspace, .typed 10, .read] s ∧
      s.Faithful := by
  have hr : ∃ s, Run Session.step (fun s e => s.Admits e ∧ s.Clear e)
      (start (fun _ => 0) 0x1000) [.typed 97, .typed 98, .backspace, .typed 10, .read] s := by
    refine ⟨_, .cons ⟨?_, ?_⟩ rfl (.cons ⟨?_, ?_⟩ rfl (.cons ⟨trivial, ?_⟩ rfl
      (.cons ⟨?_, ?_⟩ rfl (.cons ⟨trivial, trivial⟩ rfl (.nil _)))))⟩
    all_goals decide
  obtain ⟨s, hr⟩ := hr
  exact ⟨s, hr, terminal_faithful _ _ hr⟩

/-! ### The end of the page -/

/-- Typing up to the end of the page. -/
theorem run_typed {t : Terminal} {text : List UInt8} {cs : List UInt8} (hc : ∀ c ∈ cs, c ≠ 0)
    (hr : t.readPosition ≤ t.writePosition) (hend : t.writePosition + cs.length < t.bufferEnd)
    (hlen : text.length + cs.length < 4096) :
    Run Session.step Admits ⟨t, text, []⟩ (cs.map .typed)
      ⟨{ t with
        mem := writeBytes t.mem t.writePosition cs
        writePosition := t.writePosition + cs.length
        readline := cs.foldl (fun n c => if c = 10 then intSucc n else n) t.readline },
        text ++ cs, []⟩ := by
  induction cs generalizing t text with
  | nil => simpa [writeBytes] using Run.nil _
  | cons c cs ih =>
    simp only [List.length_cons] at hend hlen
    have hw := writeChar_inside (t := t) (c := c) (by omega) (by omega)
    refine .cons ⟨hc c List.mem_cons_self, ?_⟩ rfl ?_
    · simp only [List.length_nil]
      omega
    · rw [hw]
      have := ih (t := { t with
          mem := write8 t.mem t.writePosition c
          writePosition := t.writePosition + 1
          readline := if c = 10 then intSucc t.readline else t.readline })
        (fun d hd => hc d (List.mem_cons_of_mem c hd)) (Nat.le_succ_of_le hr)
        (by show t.writePosition + 1 + cs.length < t.bufferEnd; omega)
        (show (text ++ [c]).length + cs.length < 4096 by
          simp only [List.length_append, List.length_singleton]; omega)
      simpa [writeBytes, Nat.add_assoc, Nat.add_comm 1] using this

/-- Reading from the full buffer. -/
theorem readChar_full {m : Mem} {r : Nat} {d : UInt8} (hr : 0x1000 ≤ r) (hr' : r < 0x1FFF)
    (hd : m r = d) (h10 : d ≠ 10) (w : Nat) (hw : r < w) :
    (⟨m, 0x1000, w, r, 0x2000, 0, 1⟩ : Terminal).readChar =
      (d, ⟨write8 m r 0, 0x1000, w, r + 1, 0x2000, 0, 1⟩) := by
  have hread : (⟨m, 0x1000, w, r, 0x2000, 0, 1⟩ : Terminal).Readable :=
    ⟨Or.inl ⟨hw, rfl⟩, Int.one_pos⟩
  rw [readChar, if_pos hread]
  simp only [hd, if_neg h10]
  rw [if_neg (by omega)]

/-- **A character is taken away.** The page is full up to its last byte, a line is pending and
only its first character has been read: the next character that is typed makes `writeChar` read
the second one. -/
theorem not_faithful_of_full {rest : List UInt8} (hlen : rest.length = 4092)
    (hrest : ∀ c ∈ rest, c ≠ 0 ∧ c ≠ 10) : ∃ s, Run Session.step Admits (start (fun _ => 0) 0x1000)
    ((120 :: 121 :: 10 :: rest).map .typed ++ [.read, .typed 98]) s ∧ ¬ s.Faithful := by
  have hc : ∀ c ∈ (120 :: 121 :: 10 :: rest : List UInt8), c ≠ 0 := by
    intro c hc
    simp only [List.mem_cons] at hc
    rcases hc with rfl | rfl | rfl | hc
    · decide
    · decide
    · decide
    · exact (hrest c hc).1
  have hr := @run_typed (.setInputBuf (fun _ => 0) 0x1000) [] _ hc (Nat.le_refl _)
    (by show 0x1000 + (rest.length + 3) < 0x2000; omega) (by simp [hlen])
  -- the buffer after typing
  have hfold : rest.foldl (fun n c => if c = 10 then intSucc n else n) (1 : Int) = 1 := by
    clear hlen hr hc
    induction rest with
    | nil => rfl
    | cons c rest ih =>
      rw [List.foldl_cons, if_neg (hrest c List.mem_cons_self).2]
      exact ih fun d hd => hrest d (List.mem_cons_of_mem c hd)
  have hbytes := slice_writeBytes_self (fun _ => 0) 0x1000 (120 :: 121 :: 10 :: rest)
  rw [List.length_cons, List.length_cons, List.length_cons, slice, slice, slice] at hbytes
  have h10 : (120 :: 121 :: 10 :: rest).foldl (fun n c => if c = 10 then intSucc n else n)
      (setInputBuf (fun _ => 0) 0x1000).readline = 1 := hfold
  rw [h10, show (setInputBuf (fun _ => 0) 0x1000).writePosition = 0x1000 from rfl,
    show (setInputBuf (fun _ => 0) 0x1000).mem = fun _ => 0 from rfl, List.length_cons,
    List.length_cons, List.length_cons, hlen] at hr
  generalize writeBytes (fun _ => 0) 0x1000 (120 :: 121 :: 10 :: rest) = m at hr hbytes
  simp only [List.cons.injEq] at hbytes
  obtain ⟨h₀, h₁, h₂, -⟩ := hbytes
  set text : List UInt8 := 120 :: 121 :: 10 :: rest with htext
  change Run Session.step Admits _ _ ⟨⟨m, 0x1000, 0x1FFF, 0x1000, 0x2000, 0, 1⟩, text, []⟩ at hr
  have hread := readChar_full (m := m) (r := 0x1000) (by decide) (by decide) h₀ (by decide) 0x1FFF
    (by decide)
  -- the writer reads
  set m₁ := write8 (write8 m 0x1000 0) 0x1FFF 98 with hm₁
  have h₁' : m₁ 0x1001 = 121 := h₁
  have htaken := readChar_full (m := m₁) (r := 0x1001) (by decide) (by decide) h₁' (by decide) 0x2000
    (by decide)
  have hwrite : (⟨write8 m 0x1000 0, 0x1000, 0x1FFF, 0x1001, 0x2000, 0, 1⟩ : Terminal).writeChar
      98 0 = ⟨write8 m₁ 0x1001 0, 0x1000, 0x1000, 0x1002, 0x2000, 1, 1⟩ := by
    have h0 : ¬ (0 : Int) = 1 := by decide
    simp only [writeChar, store, if_neg h0, if_true, ← hm₁, htaken]
    rfl
  have hs₁ : (⟨⟨m, 0x1000, 0x1FFF, 0x1000, 0x2000, 0, 1⟩, text, []⟩ : Session).step .read =
      some ⟨⟨write8 m 0x1000 0, 0x1000, 0x1FFF, 0x1001, 0x2000, 0, 1⟩, text, [120]⟩ := by
    simp only [Session.step, hread]
    rfl
  have hs₂ : (⟨⟨write8 m 0x1000 0, 0x1000, 0x1FFF, 0x1001, 0x2000, 0, 1⟩, text, [120]⟩ :
      Session).step (.typed 98) = some ⟨⟨write8 m₁ 0x1001 0, 0x1000, 0x1000, 0x1002, 0x2000, 1, 1⟩,
        text ++ [98], [120]⟩ := by
    simp only [Session.step, hwrite]
  have hadmits : text.length + 1 < 1 + 4096 := by
    simp only [htext, List.length_cons, hlen]
    decide
  refine ⟨_, hr.trans (.cons trivial hs₁ (.cons ⟨by decide, hadmits⟩ hs₂ (.nil _))), ?_⟩
  -- the next character is the second one, but the reader is behind it
  rintro ⟨unread, htext', -, -, hnext⟩
  obtain ⟨c, rest', rfl, -, hc⟩ := hnext Int.one_pos
  have hc121 : c = 121 := by
    simp only [htext, List.cons_append, List.nil_append, List.cons.injEq] at htext'
    exact htext'.2.1.symm
  have hgot : (⟨write8 m₁ 0x1001 0, 0x1000, 0x1000, 0x1002, 0x2000, 1, 1⟩ :
      Terminal).readChar.1 = 10 := by
    have hreadable : (⟨write8 m₁ 0x1001 0, 0x1000, 0x1000, 0x1002, 0x2000, 1, 1⟩ :
        Terminal).Readable := ⟨Or.inr ⟨show 0x1000 < 0x1002 by decide, rfl⟩, Int.one_pos⟩
    rw [readChar, if_pos hreadable]
    exact h₂
  rw [hgot, hc121] at hc
  exact absurd hc (by simp)

/-- **A character is lost.** 4095 characters are typed, with a newline in third place; one is
read, and one more is typed. -/
theorem terminal_loses_char : ∃ s, Run Session.step Admits (start (fun _ => 0) 0x1000)
    ((120 :: 121 :: 10 :: List.replicate 4092 97).map .typed ++ [.read, .typed 98]) s ∧
      ¬ s.Faithful := by
  refine not_faithful_of_full List.length_replicate fun c hc => ?_
  rw [List.eq_of_mem_replicate hc]
  decide

end Session

end Sbunix
