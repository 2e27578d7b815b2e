import Mathlib.Logic.Function.Basic
import Mathlib.Tactic.Common

/-!
# A typewriter

Text on a sheet that does not end: rows of `w` cells, and the place of the next character. A
character at the end of a row goes on in the next one, and a newline fills its row with blanks.

* `Sheet.strike_cell_of_gt` — what is below the row of the cursor stays as it is;
* `SameText` — two sheets that agree in front of the cursor; all strokes keep this
  (`SameText.strike`);
* `sameText_backspace_put` — a backspace takes a character back, unless the character was the last
  of its row.
-/

namespace Typewriter

/-- A sheet with its cursor. -/
structure Sheet (α : Type) where
  cell : Nat → Nat → α
  row : Nat
  col : Nat

inductive Stroke (α : Type)
  | newline
  | carriageReturn
  | backspace
  | put (c : α)

variable {α : Type} (w : Nat) (blank : α)

namespace Sheet

/-- The next cell. -/
def advance (p : Sheet α) : Sheet α :=
  if p.col + 1 = w then { p with row := p.row + 1, col := 0 } else { p with col := p.col + 1 }

def write (p : Sheet α) (row col : Nat) (c : α) : Sheet α :=
  { p with cell := fun i j => if i = row ∧ j = col then c else p.cell i j }

/-- One stroke. A backspace stays in its row. -/
def strike (p : Sheet α) : Stroke α → Sheet α
  | .newline =>
    { cell := fun i j => if i = p.row ∧ p.col ≤ j then blank else p.cell i j
      row := p.row + 1
      col := 0 }
  | .carriageReturn => { p with col := 0 }
  | .backspace => if p.col = 0 then p else { p.write p.row (p.col - 1) blank with col := p.col - 1 }
  | .put c => (p.write p.row p.col c).advance w

/-- Strokes one after the other. -/
def type (p : Sheet α) (strokes : List (Stroke α)) : Sheet α := strokes.foldl (strike w blank) p

@[simp] theorem type_nil (p : Sheet α) : p.type w blank [] = p := rfl

@[simp] theorem type_cons (p : Sheet α) (a : Stroke α) (l : List (Stroke α)) :
    p.type w blank (a :: l) = (p.strike w blank a).type w blank l := rfl

theorem type_append (p : Sheet α) (l l' : List (Stroke α)) :
    p.type w blank (l ++ l') = (p.type w blank l).type w blank l' := List.foldl_append

variable {w} {blank} {p : Sheet α} {a : Stroke α}

@[simp] theorem advance_cell (p : Sheet α) : (p.advance w).cell = p.cell := by
  unfold advance
  split <;> rfl

theorem advance_of_last (h : p.col + 1 = w) : (p.advance w).row = p.row + 1 ∧ (p.advance w).col = 0 := by
  rw [advance, if_pos h]
  exact ⟨rfl, rfl⟩

theorem advance_of_ne (h : p.col + 1 ≠ w) :
    (p.advance w).row = p.row ∧ (p.advance w).col = p.col + 1 := by
  rw [advance, if_neg h]
  exact ⟨rfl, rfl⟩

/-- The cursor does not go up. -/
theorem row_le_strike : p.row ≤ (p.strike w blank a).row := by
  cases a with
  | newline => exact Nat.le_succ _
  | carriageReturn => exact Nat.le_refl _
  | backspace =>
    rw [strike]
    split <;> exact Nat.le_refl _
  | put c =>
    rw [strike, advance]
    split
    · exact Nat.le_succ _
    · exact Nat.le_refl _

theorem row_le_type (l : List (Stroke α)) : p.row ≤ (p.type w blank l).row := by
  induction l generalizing p with
  | nil => exact Nat.le_refl _
  | cons a l ih => exact Nat.le_trans row_le_strike ih

theorem col_lt_strike (h : p.col < w) : (p.strike w blank a).col < w := by
  cases a with
  | newline => exact Nat.zero_lt_of_lt h
  | carriageReturn => exact Nat.zero_lt_of_lt h
  | backspace =>
    rw [strike]
    split
    · exact h
    · exact Nat.lt_of_le_of_lt (Nat.sub_le _ _) h
  | put c =>
    rw [strike, advance]
    split
    · exact Nat.zero_lt_of_lt h
    · next hne => exact Nat.lt_of_le_of_ne h hne

/-- **The rest of the sheet** is not touched. -/
theorem strike_cell_of_gt {i : Nat} (h : p.row < i) (j : Nat) :
    (p.strike w blank a).cell i j = p.cell i j := by
  have hne : i ≠ p.row := Nat.ne_of_gt h
  cases a with
  | newline => simp only [strike, hne, false_and, if_false]
  | carriageReturn => rfl
  | backspace =>
    rw [strike]
    split
    · rfl
    · simp only [write, hne, false_and, if_false]
  | put c => simp only [strike, advance_cell, write, hne, false_and, if_false]

end Sheet

/-! ### The text in front of the cursor -/

/-- Cell `j` of row `i` is in front of the cursor. -/
def Sheet.Before (w : Nat) (p : Sheet α) (i j : Nat) : Prop :=
  j < w ∧ (i < p.row ∨ i = p.row ∧ j < p.col)

variable {w} {blank} {p q r : Sheet α} {a : Stroke α}

/-- The text grows by the cell of the cursor. -/
theorem Sheet.Before.of_advance {i j : Nat} (h : (p.advance w).Before w i j)
    (hne : ¬ (i = p.row ∧ j = p.col)) : p.Before w i j := by
  unfold Before at h ⊢
  by_cases hlast : p.col + 1 = w
  · obtain ⟨hrow, hcol⟩ := Sheet.advance_of_last hlast
    rw [hrow, hcol] at h
    omega
  · obtain ⟨hrow, hcol⟩ := Sheet.advance_of_ne hlast
    rw [hrow, hcol] at h
    omega

/-- Two sheets with the same text so far. -/
structure SameText (w : Nat) (p q : Sheet α) : Prop where
  row : q.row = p.row
  col : q.col = p.col
  cell : ∀ i j, p.Before w i j → q.cell i j = p.cell i j

theorem SameText.refl (p : Sheet α) : SameText w p p := ⟨rfl, rfl, fun _ _ _ => rfl⟩

theorem SameText.trans (h : SameText w p q) (h' : SameText w q r) : SameText w p r := by
  refine ⟨h'.row.trans h.row, h'.col.trans h.col, fun i j hij => ?_⟩
  have hij' : q.Before w i j := by
    rw [Sheet.Before, h.row, h.col]
    exact hij
  rw [h'.cell i j hij', h.cell i j hij]

/-- **Strokes keep it.** -/
theorem SameText.strike (h : SameText w p q) :
    SameText w (p.strike w blank a) (q.strike w blank a) := by
  obtain ⟨hr, hc, hcell⟩ := h
  cases a with
  | newline =>
    refine ⟨congrArg (· + 1) hr, rfl, fun i j hij => ?_⟩
    simp only [Sheet.strike, hr, hc]
    split_ifs with hblank
    · rfl
    · refine hcell i j ?_
      simp only [Sheet.Before, Sheet.strike] at hij ⊢
      omega
  | carriageReturn =>
    refine ⟨hr, rfl, fun i j hij => hcell i j ?_⟩
    simp only [Sheet.Before, Sheet.strike] at hij ⊢
    omega
  | backspace =>
    simp only [Sheet.strike, hr, hc]
    split_ifs with h0
    · exact ⟨hr, hc, hcell⟩
    · refine ⟨hr, rfl, fun i j hij => ?_⟩
      simp only [Sheet.write]
      split_ifs with hblank
      · rfl
      · refine hcell i j ?_
        simp only [Sheet.Before, Sheet.write] at hij ⊢
        omega
  | put c =>
    have hrow : (q.write q.row q.col c).row = (p.write p.row p.col c).row := hr
    have hcol : (q.write q.row q.col c).col = (p.write p.row p.col c).col := hc
    simp only [Sheet.strike]
    refine ⟨?_, ?_, fun i j hij => ?_⟩
    · simp only [Sheet.advance, hcol]
      split_ifs
      · exact congrArg (· + 1) hrow
      · exact hrow
    · simp only [Sheet.advance, hcol]
      split_ifs <;> rfl
    · simp only [Sheet.advance_cell, Sheet.write, hr, hc]
      split_ifs with hwritten
      · rfl
      · exact hcell i j (@Sheet.Before.of_advance _ _ (p.write p.row p.col c) i j hij hwritten)

/-- **A backspace takes a character back**, if the cursor has stayed in its row. -/
theorem sameText_backspace_put {c : α} (h : (p.strike w blank (.put c)).col ≠ 0) :
    SameText w p ((p.strike w blank (.put c)).strike w blank .backspace) := by
  have hne : p.col + 1 ≠ w := by
    intro hlast
    exact h (@Sheet.advance_of_last _ _ (p.write p.row p.col c) hlast).2
  obtain ⟨hrow, hcol⟩ := @Sheet.advance_of_ne _ _ (p.write p.row p.col c) hne
  have hrow' : (p.strike w blank (.put c)).row = p.row := hrow
  have hcol' : (p.strike w blank (.put c)).col = p.col + 1 := hcol
  rw [Sheet.strike, if_neg h, hrow', hcol', Nat.add_sub_cancel]
  refine ⟨hrow', rfl, fun i j hij => ?_⟩
  -- both strokes write the cell behind the cursor
  have hcell : ¬ (i = p.row ∧ j = p.col) := by
    rintro ⟨rfl, rfl⟩
    obtain ⟨-, hlt | ⟨-, hlt⟩⟩ := hij <;> exact Nat.lt_irrefl _ hlt
  have hput : (p.strike w blank (.put c)).cell i j = p.cell i j := by
    simp only [Sheet.strike, Sheet.advance_cell, Sheet.write, hcell, if_false]
  rw [← hput]
  simp only [Sheet.write, hcell, if_false]

end Typewriter
