import Sbunix.Terminal

/-!
# The cursors of the input buffer

Which bytes `writeChar`, `readChar` and `handleBackspace` touch. The buffer is one page, and both
cursors are to stay in it. The writer wraps when it comes to the end of the page, unless nothing has
been read yet and no line is complete: then it stays behind the last byte, and the next character
goes there. The reader wraps one byte too late, and a backspace looks at the byte in front of the
page when the writer has just wrapped.

* `accesses_inPage_iff` — a sequence of calls touches bytes of the page only exactly when each
  call finds the cursors away from these three places.
-/

namespace Sbunix

open ByteMem Runs

namespace Terminal

/-- A call to the driver. -/
inductive Call
  | writeChar (c : UInt8) (specialCharacter : Int)
  | readChar
  | handleBackspace

def run (t : Terminal) : Call → Terminal
  | .writeChar c specialCharacter => t.writeChar c specialCharacter
  | .readChar => t.readChar.2
  | .handleBackspace => t.handleBackspace

/-! ### The bytes that are touched -/

/-- `readChar` reads and clears the byte under the reader. -/
def readAccesses (t : Terminal) : List Nat := if t.Readable then [t.readPosition] else []

/-- The caret that `writeChar` puts in front of a special character. -/
def caret (t : Terminal) (specialCharacter : Int) : Terminal :=
  if specialCharacter = 1 then
    let t := t.store 0x5E
    if t.writePosition = t.bufferEnd then { t with writePosition := t.stdStart, indicator := 1 }
    else t
  else t

/-- `writeChar`: the caret, the character, and what `readChar` touches when the writer is at the
end. -/
def writeAccesses (t : Terminal) (c : UInt8) (specialCharacter : Int) : List Nat :=
  let t' := (t.caret specialCharacter).store c
  (if specialCharacter = 1 then [t.writePosition] else []) ++
    [(t.caret specialCharacter).writePosition] ++
    (if t'.writePosition = t'.bufferEnd then t'.readAccesses else [])

/-- `handleBackspace`. The three conditionals exclude each other: the cursors are equal, or the
writer is in front, or it is behind. The last two look at the byte before the writer first. -/
def backspaceAccesses (t : Terminal) : List Nat :=
  if t.writePosition = t.readPosition then [t.writePosition]
  else if t.readPosition < t.writePosition ∧ t.indicator = 0 then
    (t.writePosition - 1) :: (if t.mem (t.writePosition - 1) ≠ 10 then
      [if t.writePosition = t.stdStart then t.stdStart else t.writePosition - 1] else [])
  else if t.writePosition < t.readPosition ∧ t.indicator = 1 then
    (t.writePosition - 1) :: (if t.mem (t.writePosition - 1) ≠ 10 then
      [if t.writePosition = t.stdStart then t.bufferEnd else t.writePosition - 1] else [])
  else []

def accesses (t : Terminal) : Call → List Nat
  | .writeChar c specialCharacter => t.writeAccesses c specialCharacter
  | .readChar => t.readAccesses
  | .handleBackspace => t.backspaceAccesses

/-- **What the buffer page is for**: the call touches bytes of the page only. -/
def AccessesInPage (page : Nat) (t : Terminal) (e : Call) : Prop :=
  ∀ a ∈ t.accesses e, page ≤ a ∧ a < page + 0x1000

/-- **The cursors are away from the edge**: the writer does not stand behind the page when a
character comes, the reader does not stand there when it is read, and the writer is not at the
first byte, with the reader in front of it, when one is erased. -/
def Inside (t : Terminal) : Call → Prop
  | .writeChar .. => t.writePosition ≠ t.bufferEnd
  | .readChar => t.Readable → t.readPosition ≠ t.bufferEnd
  | .handleBackspace =>
    (t.writePosition = t.readPosition → t.writePosition ≠ t.bufferEnd) ∧
      ¬ (t.writePosition = t.stdStart ∧ t.writePosition < t.readPosition ∧ t.indicator = 1)

instance (t : Terminal) : DecidablePred t.Inside
  | .writeChar .. => inferInstanceAs (Decidable (_ ≠ _))
  | .readChar => inferInstanceAs (Decidable (_ → _))
  | .handleBackspace => inferInstanceAs (Decidable (_ ∧ _))

variable {t : Terminal} {c : UInt8} {x page : Nat}

/-! ### Nothing else is touched -/

theorem writeChar_eq (t : Terminal) (c : UInt8) (specialCharacter : Int) :
    t.writeChar c specialCharacter =
      let t := (t.caret specialCharacter).store c
      let t :=
        if t.writePosition = t.bufferEnd then
          let t := t.readChar.2
          if t.readPosition ≠ t.stdStart then { t with writePosition := t.stdStart, indicator := 1 }
          else t
        else t
      let t := if t.writePosition + 1 = t.readPosition then { t with indicator := 1 } else t
      if c = 10 then { t with readline := intSucc t.readline } else t := rfl

theorem readChar_mem (hx : x ∉ t.readAccesses) : t.readChar.2.mem x = t.mem x := by
  unfold readAccesses at hx
  unfold readChar
  by_cases h : t.Readable
  · rw [if_pos h, List.mem_singleton] at hx
    rw [if_pos h]
    dsimp only
    split <;> exact write8_of_ne hx
  · rw [if_neg h]

theorem caret_mem {specialCharacter : Int}
    (hx : x ∉ (if specialCharacter = 1 then [t.writePosition] else [])) :
    (t.caret specialCharacter).mem x = t.mem x := by
  unfold caret
  by_cases h : specialCharacter = 1
  · rw [if_pos h, List.mem_singleton] at hx
    rw [if_pos h]
    dsimp only
    split <;> exact write8_of_ne hx
  · rw [if_neg h]

/-- `handleBackspace` in three cases. -/
theorem handleBackspace_eq (t : Terminal) : t.handleBackspace =
    if t.writePosition = t.readPosition then { t with mem := write8 t.mem t.writePosition 0 }
    else if t.readPosition < t.writePosition ∧ t.indicator = 0 then
      if t.mem (t.writePosition - 1) ≠ 10 then
        let w := if t.writePosition = t.stdStart then t.stdStart else t.writePosition - 1
        { t with writePosition := w, mem := write8 t.mem w 0 }
      else t
    else if t.writePosition < t.readPosition ∧ t.indicator = 1 then
      if t.mem (t.writePosition - 1) ≠ 10 then
        let w := if t.writePosition = t.stdStart then t.bufferEnd else t.writePosition - 1
        let i := if t.writePosition = t.stdStart then 0 else t.indicator
        { t with writePosition := w, indicator := i, mem := write8 t.mem w 0 }
      else t
    else t := by
  unfold handleBackspace
  by_cases h₁ : t.writePosition = t.readPosition
  · -- equal cursors are neither in front of nor behind each other
    have hlt : ¬ t.readPosition < t.writePosition := by omega
    have hgt : ¬ t.writePosition < t.readPosition := by omega
    simp only [if_pos h₁, hlt, hgt, false_and, if_false]
  simp only [if_neg h₁]
  -- the reader is in front of the writer, or the writer has wrapped
  by_cases h₂ : t.readPosition < t.writePosition ∧ t.indicator = 0
  · have hi : ¬ t.indicator = 1 := by omega
    by_cases hm : t.mem (t.writePosition - 1) ≠ 10
    · have hall : t.readPosition < t.writePosition ∧ t.indicator = 0 ∧
          t.mem (t.writePosition - 1) ≠ 10 := ⟨h₂.1, h₂.2, hm⟩
      simp only [if_pos hall, if_pos h₂, if_pos hm, hi, false_and, and_false, if_false]
    · have hall : ¬ (t.readPosition < t.writePosition ∧ t.indicator = 0 ∧
          t.mem (t.writePosition - 1) ≠ 10) := fun h => hm h.2.2
      simp only [if_neg hall, if_pos h₂, if_neg hm, hi, false_and, and_false, if_false]
  · have hall : ¬ (t.readPosition < t.writePosition ∧ t.indicator = 0 ∧
        t.mem (t.writePosition - 1) ≠ 10) := fun h => h₂ ⟨h.1, h.2.1⟩
    simp only [if_neg hall, if_neg h₂]
    by_cases h₃ : t.writePosition < t.readPosition ∧ t.indicator = 1
    · by_cases hm : t.mem (t.writePosition - 1) ≠ 10
      · have hall : t.writePosition < t.readPosition ∧ t.indicator = 1 ∧
            t.mem (t.writePosition - 1) ≠ 10 := ⟨h₃.1, h₃.2, hm⟩
        simp only [if_pos hall, if_pos h₃, if_pos hm]
        split <;> rfl
      · have hall : ¬ (t.writePosition < t.readPosition ∧ t.indicator = 1 ∧
            t.mem (t.writePosition - 1) ≠ 10) := fun h => hm h.2.2
        simp only [if_neg hall, if_pos h₃, if_neg hm]
    · have hall : ¬ (t.writePosition < t.readPosition ∧ t.indicator = 1 ∧
          t.mem (t.writePosition - 1) ≠ 10) := fun h => h₃ ⟨h.1, h.2.1⟩
      simp only [if_neg hall, if_neg h₃]

/-- **The accesses are all that a call does to memory.** -/
theorem run_mem {e : Call} (hx : x ∉ t.accesses e) : (t.run e).mem x = t.mem x := by
  cases e with
  | writeChar c specialCharacter =>
    change x ∉ t.writeAccesses c specialCharacter at hx
    simp only [writeAccesses, List.mem_append, not_or] at hx
    obtain ⟨⟨hcaret, hstore⟩, hread⟩ := hx
    have hmem : ((t.caret specialCharacter).store c).mem x = t.mem x := by
      rw [List.mem_singleton] at hstore
      exact (write8_of_ne hstore).trans (caret_mem hcaret)
    change (t.writeChar c specialCharacter).mem x = t.mem x
    rw [writeChar_eq]
    generalize (t.caret specialCharacter).store c = u at hread hmem
    -- what follows changes the cursors and the counters, but for the character that is read
    have hlast : ∀ v : Terminal, v.mem x = t.mem x → (if c = 10 then
        { (if v.writePosition + 1 = v.readPosition then { v with indicator := 1 } else v) with
          readline := intSucc (if v.writePosition + 1 = v.readPosition then
            { v with indicator := 1 } else v).readline }
        else if v.writePosition + 1 = v.readPosition then { v with indicator := 1 } else v).mem x =
          t.mem x := by
      intro v hv
      split <;> split <;> exact hv
    apply hlast
    by_cases hend : u.writePosition = u.bufferEnd
    · rw [if_pos hend] at hread ⊢
      have hread := (readChar_mem hread).trans hmem
      dsimp only
      split <;> exact hread
    · rw [if_neg hend]
      exact hmem
  | readChar => exact readChar_mem hx
  | handleBackspace =>
    change x ∉ t.backspaceAccesses at hx
    change t.handleBackspace.mem x = t.mem x
    rw [handleBackspace_eq]
    unfold backspaceAccesses at hx
    by_cases h₁ : t.writePosition = t.readPosition
    · rw [if_pos h₁, List.mem_singleton] at hx
      rw [if_pos h₁]
      exact write8_of_ne hx
    rw [if_neg h₁] at hx ⊢
    by_cases h₂ : t.readPosition < t.writePosition ∧ t.indicator = 0
    · rw [if_pos h₂] at hx ⊢
      by_cases hm : t.mem (t.writePosition - 1) ≠ 10
      · rw [if_pos hm, List.mem_cons, List.mem_singleton, not_or] at hx
        rw [if_pos hm]
        exact write8_of_ne hx.2
      · rw [if_neg hm]
    rw [if_neg h₂] at hx ⊢
    by_cases h₃ : t.writePosition < t.readPosition ∧ t.indicator = 1
    · rw [if_pos h₃] at hx ⊢
      by_cases hm : t.mem (t.writePosition - 1) ≠ 10
      · rw [if_pos hm, List.mem_cons, List.mem_singleton, not_or] at hx
        rw [if_pos hm]
        exact write8_of_ne hx.2
      · rw [if_neg hm]
    · rw [if_neg h₃]

/-! ### Where the cursors are -/

/-- **The invariant**: both cursors are in the page or just behind it. -/
structure InBuffer (page : Nat) (t : Terminal) : Prop where
  start : t.stdStart = page
  stop : t.bufferEnd = page + 0x1000
  write : page ≤ t.writePosition ∧ t.writePosition ≤ page + 0x1000
  read : page ≤ t.readPosition ∧ t.readPosition ≤ page + 0x1000

theorem inBuffer_setInputBuf (mem : Mem) (page : Nat) : InBuffer page (setInputBuf mem page) :=
  ⟨rfl, rfl, ⟨le_refl _, Nat.le_add_right _ _⟩, ⟨le_refl _, Nat.le_add_right _ _⟩⟩

theorem InBuffer.readChar (h : InBuffer page t) (hok : t.Inside .readChar) :
    InBuffer page t.readChar.2 := by
  obtain ⟨hs, he, hw, hr⟩ := h
  unfold Terminal.readChar
  by_cases hread : t.Readable
  · have hne := hok hread
    rw [if_pos hread]
    dsimp only
    split
    · exact ⟨hs, he, hw, show page ≤ t.stdStart ∧ _ by rw [hs]; exact ⟨le_refl _, by omega⟩⟩
    · exact ⟨hs, he, hw, show page ≤ t.readPosition + 1 ∧ t.readPosition + 1 ≤ page + 0x1000 by
        omega⟩
  · rw [if_neg hread]
    exact ⟨hs, he, hw, hr⟩

/-- Behind the caret the writer is still in the page. -/
theorem InBuffer.caret (h : InBuffer page t) (hok : t.writePosition ≠ t.bufferEnd)
    (specialCharacter : Int) : InBuffer page (t.caret specialCharacter) ∧
      (t.caret specialCharacter).writePosition ≠ (t.caret specialCharacter).bufferEnd := by
  obtain ⟨hs, he, hw, hr⟩ := h
  unfold Terminal.caret
  split
  · dsimp only [store]
    split
    · refine ⟨⟨hs, he, ?_, hr⟩, ?_⟩
      · exact show page ≤ t.stdStart ∧ t.stdStart ≤ page + 0x1000 by omega
      · exact show t.stdStart ≠ t.bufferEnd by omega
    · next hne =>
      refine ⟨⟨hs, he, ?_, hr⟩, hne⟩
      exact show page ≤ t.writePosition + 1 ∧ t.writePosition + 1 ≤ page + 0x1000 by omega
  · exact ⟨⟨hs, he, hw, hr⟩, hok⟩

/-- When the writer has come to the end, the reader that makes room is in the page. -/
theorem InBuffer.inside_readChar (h : InBuffer page t) (hend : t.writePosition = t.bufferEnd) :
    t.Inside .readChar := by
  rintro ⟨hread, -⟩ hr
  have := h.stop
  omega

/-- **A call that finds the cursors away from the edge keeps them in the buffer.** -/
theorem InBuffer.run (h : InBuffer page t) {e : Call} (hok : t.Inside e) :
    InBuffer page (t.run e) := by
  cases e with
  | writeChar c specialCharacter =>
    obtain ⟨hcaret, hne⟩ := h.caret hok specialCharacter
    change InBuffer page (t.writeChar c specialCharacter)
    rw [writeChar_eq]
    generalize t.caret specialCharacter = u at hcaret hne
    -- the character, the end of the page, and then the counters
    have hstore : InBuffer page (u.store c) := by
      obtain ⟨hs, he, hw, hr⟩ := hcaret
      refine ⟨hs, he, ?_, hr⟩
      exact show page ≤ u.writePosition + 1 ∧ u.writePosition + 1 ≤ page + 0x1000 by omega
    have hread : (u.store c).writePosition = (u.store c).bufferEnd →
        InBuffer page (u.store c).readChar.2 := fun hend =>
      hstore.readChar (hstore.inside_readChar hend)
    generalize u.store c = v at hstore hread
    have hwrap : InBuffer page (if v.writePosition = v.bufferEnd then
        if v.readChar.2.readPosition ≠ v.readChar.2.stdStart then
          { v.readChar.2 with writePosition := v.readChar.2.stdStart, indicator := 1 }
        else v.readChar.2
        else v) := by
      split
      · next hend =>
        obtain ⟨hs, he, hw, hr⟩ := hread hend
        split
        · refine ⟨hs, he, ?_, hr⟩
          exact show page ≤ v.readChar.2.stdStart ∧ v.readChar.2.stdStart ≤ page + 0x1000 by omega
        · exact ⟨hs, he, hw, hr⟩
      · exact hstore
    dsimp only
    generalize (if v.writePosition = v.bufferEnd then
        if v.readChar.2.readPosition ≠ v.readChar.2.stdStart then
          { v.readChar.2 with writePosition := v.readChar.2.stdStart, indicator := 1 }
        else v.readChar.2
        else v) = w at hwrap
    obtain ⟨hs, he, hw, hr⟩ := hwrap
    split <;> split <;> exact ⟨hs, he, hw, hr⟩
  | readChar => exact h.readChar hok
  | handleBackspace =>
    change InBuffer page t.handleBackspace
    obtain ⟨hs, he, hw, hr⟩ := h
    rw [handleBackspace_eq]
    split
    · exact ⟨hs, he, hw, hr⟩
    · split
      · next hfront =>
        -- the reader is in the page, so the writer can go back
        split
        · refine ⟨hs, he, ?_, hr⟩
          dsimp only
          split <;> omega
        · exact ⟨hs, he, hw, hr⟩
      · split
        · next hbehind =>
          split
          · refine ⟨hs, he, ?_, hr⟩
            dsimp only
            split <;> omega
          · exact ⟨hs, he, hw, hr⟩
        · exact ⟨hs, he, hw, hr⟩

/-! ### The accesses of a call -/

theorem accesses_readChar_iff (h : InBuffer page t) :
    AccessesInPage page t .readChar ↔ t.Inside .readChar := by
  obtain ⟨hs, he, hw, hr⟩ := h
  change (∀ a ∈ t.readAccesses, _) ↔ (t.Readable → _)
  unfold readAccesses
  by_cases hread : t.Readable
  · rw [if_pos hread]
    constructor
    · intro hall _
      have := hall _ List.mem_cons_self
      omega
    · intro hok a ha
      have := hok hread
      rw [List.mem_singleton.mp ha]
      omega
  · rw [if_neg hread]
    exact iff_of_true (fun a ha => absurd ha List.not_mem_nil) fun h => absurd h hread

/-- With the writer in the page, nothing that `writeChar` touches is outside. -/
theorem accesses_writeChar_iff (h : InBuffer page t) {specialCharacter : Int} :
    AccessesInPage page t (.writeChar c specialCharacter) ↔
      t.Inside (.writeChar c specialCharacter) := by
  change (∀ a ∈ t.writeAccesses c specialCharacter, _) ↔ t.writePosition ≠ t.bufferEnd
  constructor
  · intro hall hend
    -- the first byte that is written, be it the caret, is where the writer stands
    have hfirst : t.writePosition ∈ t.writeAccesses c specialCharacter := by
      unfold writeAccesses caret
      by_cases hc : specialCharacter = 1
      · simp only [if_pos hc, List.mem_append, List.mem_singleton, true_or]
      · simp only [if_neg hc, List.mem_append, List.mem_singleton, or_true, true_or]
    have := hall _ hfirst
    have := h.stop
    omega
  · intro hok a ha
    obtain ⟨hcaret, hne⟩ := h.caret hok specialCharacter
    simp only [writeAccesses, List.mem_append] at ha
    rcases ha with (ha | ha) | ha
    · split at ha
      · have := h.stop
        have := h.write
        rw [List.mem_singleton.mp ha]
        omega
      · exact absurd ha List.not_mem_nil
    · have := hcaret.stop
      have := hcaret.write
      rw [List.mem_singleton.mp ha]
      omega
    · generalize t.caret specialCharacter = u at ha hcaret hne
      split at ha
      · next hend =>
        have hstore : InBuffer page (u.store c) := by
          obtain ⟨hs, he, hw, hr⟩ := hcaret
          refine ⟨hs, he, ?_, hr⟩
          exact show page ≤ u.writePosition + 1 ∧ u.writePosition + 1 ≤ page + 0x1000 by omega
        exact (accesses_readChar_iff hstore).mpr (hstore.inside_readChar hend) a ha
      · exact absurd ha List.not_mem_nil

theorem accesses_handleBackspace_iff (h : InBuffer page t) (hpage : 0 < page) :
    AccessesInPage page t .handleBackspace ↔ t.Inside .handleBackspace := by
  obtain ⟨hs, he, hw, hr⟩ := h
  change (∀ a ∈ t.backspaceAccesses, _) ↔ (_ → _) ∧ ¬ _
  unfold backspaceAccesses
  by_cases h₁ : t.writePosition = t.readPosition
  · -- the byte at the cursors, which may be the end of the page
    rw [if_pos h₁]
    simp only [List.mem_singleton, forall_eq]
    omega
  rw [if_neg h₁]
  by_cases h₂ : t.readPosition < t.writePosition ∧ t.indicator = 0
  · -- the writer is behind the reader, so the byte in front of it is in the page
    rw [if_pos h₂]
    refine iff_of_true ?_ ⟨fun h => absurd h h₁, by omega⟩
    intro a ha
    rw [if_neg (show t.writePosition ≠ t.stdStart by omega)] at ha
    have ha : a = t.writePosition - 1 := by
      split at ha <;> simpa using ha
    omega
  rw [if_neg h₂]
  by_cases h₃ : t.writePosition < t.readPosition ∧ t.indicator = 1
  · rw [if_pos h₃]
    by_cases hstart : t.writePosition = t.stdStart
    · -- the byte in front of the page
      refine iff_of_false (fun hall => ?_) fun hok => hok.2 ⟨hstart, h₃⟩
      have := hall (t.writePosition - 1) List.mem_cons_self
      omega
    · refine iff_of_true ?_ ⟨fun h => absurd h h₁, fun hbad => hstart hbad.1⟩
      intro a ha
      rw [if_neg hstart] at ha
      have ha : a = t.writePosition - 1 := by
        split at ha <;> simpa using ha
      omega
  · rw [if_neg h₃]
    refine iff_of_true (fun a ha => absurd ha List.not_mem_nil) ⟨fun h => absurd h h₁, ?_⟩
    exact fun hbad => h₃ hbad.2

/-- **A call touches bytes of the page only** exactly when it finds the cursors away from the
edge. -/
theorem accessesInPage_iff (h : InBuffer page t) (hpage : 0 < page) (e : Call) :
    AccessesInPage page t e ↔ t.Inside e := by
  cases e with
  | writeChar c specialCharacter => exact accesses_writeChar_iff h
  | readChar => exact accesses_readChar_iff h
  | handleBackspace => exact accesses_handleBackspace_iff h hpage

/-- **The input buffer is accessed only within its page** in exactly the sequences of calls whose
calls all find the cursors away from the edge. -/
theorem accesses_inPage_iff (mem : Mem) (hpage : 0 < page) (calls : List Call) :
    Always Terminal.run (AccessesInPage page) calls (setInputBuf mem page) ↔
      Always Terminal.run Inside calls (setInputBuf mem page) :=
  always_iff (inBuffer_setInputBuf mem page) (fun _ e _ h => accessesInPage_iff h hpage e)
    fun _ _ _ h hok => h.run hok

/-- A character is typed and erased, and an empty line is read. -/
theorem accesses_inPage_line : Always Terminal.run (AccessesInPage 0x1000)
    [.writeChar 97 0, .handleBackspace, .writeChar 10 0, .readChar]
    (setInputBuf (fun _ => 0) 0x1000) := by
  refine (accesses_inPage_iff _ (by decide) _).mpr ⟨?_, ⟨?_, ?_⟩, ?_, ?_, trivial⟩
  all_goals decide

/-! ### No line is ever finished -/

/-- Nothing has been read, and no line is complete. -/
structure Unfinished (page n : Nat) (t : Terminal) : Prop where
  start : t.stdStart = page
  stop : t.bufferEnd = page + 0x1000
  write : t.writePosition = page + n
  read : t.readPosition = page
  indicator : t.indicator = 0
  readline : t.readline = 0

/-- **A character of an unfinished line** moves the writer, also to the end of the page. -/
theorem Unfinished.writeChar {n : Nat} (h : Unfinished page n t) (hc : c ≠ 10) :
    Unfinished page (n + 1) (t.writeChar c 0) := by
  obtain ⟨hs, he, hw, hr, hi, hl⟩ := h
  have hnext : t.writePosition + 1 = page + (n + 1) := by omega
  by_cases hend : t.writePosition + 1 = t.bufferEnd
  · -- `readChar` finds no line, and the reader is at the start: the writer does not wrap
    have hidle : (t.store c).readChar = (0, t.store c) := readChar_idle hl
    have h0 : ¬ (0 : Int) = 1 := by decide
    have hstore : t.writeChar c 0 = t.store c := by
      have hstay : ¬ (t.store c).readPosition ≠ (t.store c).stdStart :=
        fun h => h (hr.trans hs.symm)
      have hapart : ¬ (t.store c).writePosition + 1 = (t.store c).readPosition := by
        change ¬ t.writePosition + 1 + 1 = t.readPosition
        omega
      have hend : (t.store c).writePosition = (t.store c).bufferEnd := hend
      simp only [writeChar_eq, Terminal.caret, if_neg h0, if_pos hend, hidle, if_neg hstay,
        if_neg hapart, if_neg hc]
    rw [hstore]
    exact ⟨hs, he, hnext, hr, hi, hl⟩
  · rw [writeChar_inside hend (by omega), if_neg hc]
    exact ⟨hs, he, hnext, hr, hi, hl⟩

theorem Unfinished.replicate {m : Nat} (h : Unfinished page m t) (hc : c ≠ 10) (n : Nat) :
    Unfinished page (m + n) ((List.replicate n (.writeChar c 0)).foldl Terminal.run t) := by
  induction n generalizing m t with
  | zero => exact h
  | succ n ih =>
    have := ih (h.writeChar hc)
    rwa [show m + 1 + n = m + (n + 1) by omega] at this

theorem Unfinished.not_always {n : Nat} (h : Unfinished page 0 t) (hc : c ≠ 10) (hn : n = 0x1000) :
    ¬ Always Terminal.run (AccessesInPage page)
      (List.replicate n (.writeChar c 0) ++ [.writeChar c 0]) t := by
  intro hall
  rw [always_append] at hall
  obtain ⟨-, hlast, -⟩ := hall
  have hfull := h.replicate hc n
  generalize (List.replicate n (.writeChar c 0)).foldl Terminal.run t = u at hlast hfull
  -- the writer stands behind the page
  have := hlast u.writePosition List.mem_cons_self
  have := hfull.write
  omega

/-- **A byte behind the page is written** by the character that follows 4096 others without a
newline. -/
theorem not_accesses_inPage : ¬ Always Terminal.run (AccessesInPage 0x1000)
    (List.replicate 4096 (.writeChar 97 0) ++ [.writeChar 97 0])
    (setInputBuf (fun _ => 0) 0x1000) :=
  Unfinished.not_always ⟨rfl, rfl, rfl, rfl, rfl, rfl⟩ (by decide) rfl

end Terminal

end Sbunix
