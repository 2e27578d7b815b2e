import Sbunix.Lib.Typewriter
import Sbunix.Screen

/-!
# What the screen shows

The text on the screen is the end of one long sheet: `kprintf` writes on it as a typewriter does,
and the 24 rows show the sheet down to the row of the cursor.

* `Shows` — the screen shows the sheet;
* `Shows.char` — one character is one stroke, and `screen_shows_sheet` — a sequence of calls;
* `colors_of_call` — the colour is set in front of a call only: the rows that come up while it
  prints have the colour 0, black on black, until the next one.
-/

namespace Sbunix

open ByteMem Runs Typewriter

def CharOp.stroke : CharOp → Stroke UInt8
  | .newline => .newline
  | .carriageReturn => .carriageReturn
  | .backspace => .backspace
  | .put c => .put c

/-- Printing on a sheet of 80 columns. -/
abbrev printed (p : Sheet UInt8) (ops : List CharOp) : Sheet UInt8 :=
  p.type 80 0x20 (ops.map CharOp.stroke)

/-- The rows of a sheet that have left the screen. -/
def scrolled (p : Sheet UInt8) : Nat := p.row - 23

namespace Screen

/-- The character in column `j` of row `i`. -/
def charAt (s : Screen) (i j : Nat) : UInt8 := s.mem (s.vga + 160 * i + 2 * j)

/-- Its colour. -/
def colorAt (s : Screen) (i j : Nat) : UInt8 := s.mem (s.vga + 160 * i + 2 * j + 1)

/-- The sheet that begins with what is on the screen. -/
def sheet (s : Screen) : Sheet UInt8 where
  cell i j := if i < 24 then s.charAt i j else 0
  row := s.row
  col := (s.lineAdr - s.vga) % 160 / 2

/-- **The screen shows the end of the sheet.** -/
structure Shows (s : Screen) (p : Sheet UInt8) : Prop where
  cursor : s.At (p.row - scrolled p) p.col
  text : ∀ i < 24, ∀ j < 80, s.charAt i j = p.cell (scrolled p + i) j
  /-- What has not come up is empty. -/
  below : ∀ i, scrolled p + 24 ≤ i → ∀ j, p.cell i j = 0

/-- The first `n` rows of the sheet are white, and the others have no colour. -/
def Lit (s : Screen) (p : Sheet UInt8) (n : Nat) : Prop :=
  ∀ i < 24, ∀ j < 80, s.colorAt i j = if scrolled p + i < n then 7 else 0

variable {s s' : Screen} {p : Sheet UInt8} {op : CharOp} {ops : List CharOp} {n r : Nat}

/-! ### The end of a row -/

theorem intSucc_count (h : -2 ^ 31 ≤ s.vLineCount) (hi : s.vLineCount + 1 < 2 ^ 31) :
    intSucc s.vLineCount = s.vLineCount + 1 := by
  rw [intSucc, Int.bmod_eq_of_le] <;> omega

/-- In the bottom row the text moves up by a row … -/
theorem byte_of_bottom (hl : s.lineAdr = s.nextLineAdrs) (h24 : 24 ≤ s.vLineCount)
    (hi : s.vLineCount + 1 < 2 ^ 31) {x : Nat} (hx : x < 160 * 24) :
    s.checkIfLineFull.mem (s.vga + x) =
      if x < 160 * 23 then s.mem (s.vga + x + 160) else 0 := by
  simp only [checkIfLineFull, if_pos hl, intSucc_count (by omega) hi]
  rw [if_pos (by omega)]
  simp only [fill_apply]
  by_cases hlast : x < 160 * 23
  · rw [if_neg (by omega), if_pos hlast, copy_down_apply _ (by omega), if_pos (by omega)]
    congr 1
    omega
  · rw [if_pos (by omega), if_neg hlast]

/-- … and nothing is written in the others. -/
theorem mem_of_above (h24 : s.vLineCount < 24) (hc : -2 ^ 31 ≤ s.vLineCount) :
    s.checkIfLineFull.mem = s.mem := by
  simp only [checkIfLineFull, intSucc_count hc (by omega)]
  split
  · rw [if_neg (by omega)]
  · rfl

/-- **A row that is done.** With the cursor at its end, the screen shows the sheet with the cursor
on the next row. -/
theorem shows_of_full {cell : Nat → Nat → UInt8} {row : Nat} (hr : row - (row - 23) = r)
    (hl : s.lineAdr = s.nextLineAdrs) (he : s.nextLineAdrs = s.vga + 160 * (r + 1))
    (hc : s.vLineCount = r + 1 ∨ r = 23 ∧ 24 ≤ s.vLineCount) (hi : s.vLineCount + 1 < 2 ^ 31)
    (htext : ∀ i < 24, ∀ j < 80, s.charAt i j = cell (row - 23 + i) j)
    (hbelow : ∀ i, row - 23 + 24 ≤ i → ∀ j, cell i j = 0) :
    s.checkIfLineFull.Shows ⟨cell, row + 1, 0⟩ ∧
      ∀ i < 24, ∀ j < 80, s.checkIfLineFull.colorAt i j =
        if row < 23 then s.colorAt i j else if i < 23 then s.colorAt (i + 1) j else 0 := by
  obtain ⟨hat, hwithin⟩ := checkIfLineFull_full (by omega) hl he hc hi
  have hrow : row + 1 - (row + 1 - 23) = min (r + 1) 23 := by omega
  have hvga := hwithin.vga
  by_cases h24 : 24 ≤ s.vLineCount
  · -- the sheet moves on by a row
    have hbottom : r = 23 := by omega
    have hgone : row + 1 - 23 = row - 23 + 1 := by omega
    have hbyte : ∀ i < 24, ∀ j < 80, ∀ b < 2,
        s.checkIfLineFull.mem (s.checkIfLineFull.vga + 160 * i + 2 * j + b) =
          if i < 23 then s.mem (s.vga + 160 * (i + 1) + 2 * j + b) else 0 := by
      intro i hi' j hj b hb
      rw [hvga, show s.vga + 160 * i + 2 * j + b = s.vga + (160 * i + 2 * j + b) by omega,
        byte_of_bottom hl h24 hi (by omega)]
      refine if_congr (by omega) ?_ rfl
      congr 1
      omega
    refine ⟨⟨by rw [scrolled, hrow]; exact hat, ?_, ?_⟩, ?_⟩
    · intro i hi' j hj
      have hchar : s.checkIfLineFull.charAt i j = if i < 23 then s.charAt (i + 1) j else 0 :=
        hbyte i hi' j hj 0 (by omega)
      rw [hchar, scrolled, hgone, Nat.add_right_comm]
      split_ifs with hlast
      · exact htext (i + 1) (by omega) j hj
      · exact (hbelow _ (by omega) j).symm
    · intro i hi' j
      simp only [scrolled] at hi'
      exact hbelow i (by omega) j
    · intro i hi' j hj
      rw [if_neg (by omega)]
      exact hbyte i hi' j hj 1 (by omega)
  · -- there is a row below
    have hmem := mem_of_above (s := s) (by omega) (by omega)
    have hgone : row + 1 - 23 = row - 23 := by omega
    refine ⟨⟨by rw [scrolled, hrow]; exact hat, ?_, ?_⟩, ?_⟩
    · intro i hi' j hj
      simp only [charAt, hvga, hmem, scrolled, hgone]
      exact htext i hi' j hj
    · intro i hi' j
      simp only [scrolled, hgone] at hi'
      exact hbelow i hi' j
    · intro i hi' j hj
      rw [if_pos (by omega)]
      simp only [colorAt, hvga, hmem]

/-! ### One character -/

theorem write8_char {m : Mem} {V a c i j : Nat} {b : UInt8} (ha : a = V + 160 * r + 2 * c)
    (hc : c < 80) (hj : j < 80) :
    write8 m a b (V + 160 * i + 2 * j) = if i = r ∧ j = c then b else m (V + 160 * i + 2 * j) :=
  if_congr (by omega) rfl rfl

theorem write8_color {m : Mem} {V a c i j : Nat} {b : UInt8} (ha : a = V + 160 * r + 2 * c) :
    write8 m a b (V + 160 * i + 2 * j + 1) = m (V + 160 * i + 2 * j + 1) :=
  write8_of_ne (by omega)

/-- What the loop of a newline writes. -/
theorem padRow_chars {n k : Nat} (hk : k < n) (hl : s.lineAdr + 2 * k = s.nextLineAdrs) :
    ∃ m, padRow n s = some { s with mem := m, lineAdr := s.nextLineAdrs } ∧
      ∀ x, m x = if s.lineAdr ≤ x ∧ x < s.nextLineAdrs ∧ (x - s.lineAdr) % 2 = 0 then 0x20
        else s.mem x := by
  induction k generalizing s n with
  | zero =>
    obtain ⟨n, rfl⟩ : ∃ n', n = n' + 1 := ⟨n - 1, by omega⟩
    have hend : s.lineAdr = s.nextLineAdrs := by omega
    refine ⟨s.mem, ?_, fun x => (if_neg (by omega)).symm⟩
    rw [padRow, if_neg (not_not_intro hend)]
    exact congrArg (fun l => some { s with lineAdr := l }) hend
  | succ k ih =>
    obtain ⟨n, rfl⟩ : ∃ n', n = n' + 1 := ⟨n - 1, by omega⟩
    rw [padRow, if_pos (by omega)]
    obtain ⟨m, hm, hbytes⟩ := ih (s := { s with
      mem := write8 s.mem s.lineAdr 0x20, lineAdr := s.lineAdr + 2 }) (n := n) (by omega)
      (by simp only; omega)
    refine ⟨m, hm, fun x => ?_⟩
    rw [hbytes]
    simp only [write8]
    split_ifs <;> first | rfl | omega

/-- The colours after a row that is done. -/
theorem Lit.of_full {q : Sheet UInt8} (h : s.Lit p n) (hn : n ≤ scrolled p + 24)
    (hcolor : ∀ i < 24, ∀ j < 80, s'.colorAt i j =
      if p.row < 23 then s.colorAt i j else if i < 23 then s.colorAt (i + 1) j else 0)
    (hq : q.row = p.row + 1) : s'.Lit q n := by
  intro i hi j hj
  have hrow := fun i hi => h i hi j hj
  unfold scrolled at hn hrow ⊢
  rw [hcolor i hi j hj, hq]
  by_cases h23 : p.row < 23
  · rw [if_pos h23, hrow i hi]
    exact if_congr (by omega) rfl rfl
  · rw [if_neg h23]
    by_cases hlast : i < 23
    · rw [if_pos hlast, hrow _ (by omega)]
      exact if_congr (by omega) rfl rfl
    · rw [if_neg hlast, if_neg (by omega)]

theorem Shows.put (h : s.Shows p) (hi : s.vLineCount + 1 < 2 ^ 31) (c : UInt8) :
    ∃ s', s.char (.put c) = some s' ∧ s'.Shows (p.strike 80 0x20 (.put c)) ∧
      ∀ n ≤ scrolled p + 24, s.Lit p n → s'.Lit (p.strike 80 0x20 (.put c)) n := by
  obtain ⟨⟨hr, hj, hl, he, hc, hint⟩, htext, hbelow⟩ := h
  have hle : scrolled p ≤ p.row := Nat.sub_le _ _
  set s₁ : Screen :=
    { s with mem := write8 s.mem s.lineAdr c, lineAdr := s.lineAdr + 2 } with hs₁
  have htext₁ : ∀ i < 24, ∀ j < 80, s₁.charAt i j =
      (p.write p.row p.col c).cell (scrolled p + i) j := by
    intro i hi' j hj'
    rw [charAt, hs₁]
    simp only [Sheet.write]
    rw [write8_char hl hj hj', ← charAt, htext i hi' j hj']
    exact if_congr (by omega) rfl rfl
  have hbelow₁ : ∀ i, scrolled p + 24 ≤ i → ∀ j, (p.write p.row p.col c).cell i j = 0 := by
    intro i hi' j
    simp only [Sheet.write]
    rw [if_neg (by omega)]
    exact hbelow i hi' j
  have hcolor₁ : ∀ i j, s₁.colorAt i j = s.colorAt i j := by
    intro i j
    rw [colorAt, hs₁]
    exact write8_color hl
  refine ⟨s₁.checkIfLineFull, rfl, ?_⟩
  by_cases hlast : p.col + 1 = 80
  · -- the last character of the row
    have hstrike : p.strike 80 0x20 (.put c) = ⟨(p.write p.row p.col c).cell, p.row + 1, 0⟩ :=
      if_pos hlast
    obtain ⟨hshows, hcolor⟩ := shows_of_full (s := s₁) rfl (by simp only [hs₁]; omega) he hc hi
      htext₁ hbelow₁
    rw [hstrike]
    refine ⟨hshows, fun n hn hlit => Lit.of_full (s := s₁) (p := p) ?_ hn hcolor rfl⟩
    intro i hi' j hj'
    rw [hcolor₁]
    exact hlit i hi' j hj'
  · -- the row goes on
    have hstrike : p.strike 80 0x20 (.put c) =
        ⟨(p.write p.row p.col c).cell, p.row, p.col + 1⟩ := if_neg hlast
    rw [checkIfLineFull_of_ne (by simp only [hs₁]; omega), hstrike]
    refine ⟨⟨⟨hr, show p.col + 1 < 80 by omega, ?_, he, hc, hint⟩, htext₁, hbelow₁⟩,
      fun n hn hlit i hi' j hj' => ?_⟩
    · show s.lineAdr + 2 = s.vga + 160 * (p.row - scrolled p) + 2 * (p.col + 1)
      omega
    · rw [hcolor₁]
      exact hlit i hi' j hj'

theorem Shows.newline (h : s.Shows p) (hi : s.vLineCount + 1 < 2 ^ 31) :
    ∃ s', s.char .newline = some s' ∧ s'.Shows (p.strike 80 0x20 .newline) ∧
      ∀ n ≤ scrolled p + 24, s.Lit p n → s'.Lit (p.strike 80 0x20 .newline) n := by
  obtain ⟨⟨hr, hj, hl, he, hc, hint⟩, htext, hbelow⟩ := h
  have hle : scrolled p ≤ p.row := Nat.sub_le _ _
  obtain ⟨m, hm, hbytes⟩ := padRow_chars (k := 80 - p.col) (lt_rowFuel (by omega)) (s := s)
    (by omega)
  set s₁ : Screen := { s with mem := m, lineAdr := s.nextLineAdrs } with hs₁
  have htext₁ : ∀ i < 24, ∀ j < 80, s₁.charAt i j =
      (p.strike 80 0x20 .newline).cell (scrolled p + i) j := by
    intro i hi' j hj'
    simp only [charAt, hs₁, hbytes, Sheet.strike]
    rw [← charAt, htext i hi' j hj']
    exact if_congr (by omega) rfl rfl
  have hbelow₁ : ∀ i, scrolled p + 24 ≤ i → ∀ j, (p.strike 80 0x20 .newline).cell i j = 0 := by
    intro i hi' j
    rw [Sheet.strike_cell_of_gt (by omega)]
    exact hbelow i hi' j
  obtain ⟨hshows, hcolor⟩ := @shows_of_full s₁ _ _ p.row rfl rfl he hc hi htext₁ hbelow₁
  refine ⟨s₁.checkIfLineFull, by rw [char, hm, Option.map_some], hshows, fun n hn hlit => ?_⟩
  refine Lit.of_full (s := s₁) (p := p) (fun i hi' j hj' => ?_) hn hcolor rfl
  -- only characters are written
  have hsame : s₁.colorAt i j = s.colorAt i j := by
    simp only [colorAt, hs₁, hbytes]
    exact if_neg (by omega)
  rw [hsame]
  exact hlit i hi' j hj'

theorem Shows.carriageReturn (h : s.Shows p) :
    ∃ s', s.char .carriageReturn = some s' ∧ s'.Shows (p.strike 80 0x20 .carriageReturn) ∧
      ∀ n, s.Lit p n → s'.Lit (p.strike 80 0x20 .carriageReturn) n := by
  obtain ⟨⟨hr, hj, hl, he, hc, hint⟩, htext, hbelow⟩ := h
  have hs := rewindRow_spec (s := s) (n := rowFuel) (k := p.col) (lt_rowFuel (by omega)) (by omega)
  obtain ⟨l, hl'⟩ : ∃ l, s.nextLineAdrs - 160 = l := ⟨_, rfl⟩
  rw [hl'] at hs
  refine ⟨_, hs, ⟨⟨hr, show 0 < 80 by omega, ?_, he, hc, hint⟩, htext, hbelow⟩,
    fun n hlit => hlit⟩
  show l = s.vga + 160 * (p.row - scrolled p) + 2 * 0
  omega

theorem Shows.backspace (h : s.Shows p) (hne : s.lineAdr ≠ s.nextLineAdrs - 160) :
    ∃ s', s.char .backspace = some s' ∧ s'.Shows (p.strike 80 0x20 .backspace) ∧
      ∀ n, s.Lit p n → s'.Lit (p.strike 80 0x20 .backspace) n := by
  obtain ⟨⟨hr, hj, hl, he, hc, hint⟩, htext, hbelow⟩ := h
  have hle : scrolled p ≤ p.row := Nat.sub_le _ _
  have hcol : p.col ≠ 0 := by
    intro h0
    exact hne (by rw [hl, he, h0]; omega)
  have haddr : s.lineAdr - 2 = s.vga + 160 * (p.row - scrolled p) + 2 * (p.col - 1) := by omega
  have hstrike : p.strike 80 0x20 .backspace =
      { p.write p.row (p.col - 1) 0x20 with col := p.col - 1 } := if_neg hcol
  rw [hstrike]
  refine ⟨_, rfl, ?_⟩
  simp only [if_neg hne]
  refine ⟨⟨⟨hr, ?_, haddr, he, hc, hint⟩, ?_, ?_⟩, fun n hlit i hi' j hj' => ?_⟩
  · simp only
    omega
  · intro i hi' j hj'
    simp only [charAt, Sheet.write]
    rw [write8_char haddr (by omega) hj', ← charAt, htext i hi' j hj']
    exact if_congr (by simp only [scrolled]; omega) rfl rfl
  · intro i hi' j
    simp only [Sheet.write, scrolled] at hi' ⊢
    rw [if_neg (by omega)]
    exact hbelow i hi' j
  · show write8 s.mem (s.lineAdr - 2) 0x20 (s.vga + 160 * i + 2 * j + 1) = _
    rw [write8_color haddr]
    exact hlit i hi' j hj'

/-- **One character is one stroke**, and the colours of the rows go with them. -/
theorem Shows.char (h : s.Shows p) (hk : s.Keeps op) :
    ∃ s', s.char op = some s' ∧ s'.Shows (p.strike 80 0x20 op.stroke) ∧
      ∀ n ≤ scrolled p + 24, s.Lit p n → s'.Lit (p.strike 80 0x20 op.stroke) n := by
  obtain ⟨hback, hi⟩ := hk
  cases op with
  | newline => exact h.newline hi
  | carriageReturn =>
    obtain ⟨s', hs, hshows, hlit⟩ := h.carriageReturn
    exact ⟨s', hs, hshows, fun n _ => hlit n⟩
  | backspace =>
    obtain ⟨s', hs, hshows, hlit⟩ := h.backspace (hback rfl)
    exact ⟨s', hs, hshows, fun n _ => hlit n⟩
  | put c => exact h.put hi c

theorem scrolled_le_strike (p : Sheet UInt8) (a : Stroke UInt8) :
    scrolled p ≤ scrolled (p.strike 80 0x20 a) :=
  Nat.sub_le_sub_right Sheet.row_le_strike 23

theorem Shows.chars (h : s.Shows p) (hk : s.KeepsAll ops) :
    ∃ s', ops.foldlM Screen.char s = some s' ∧ s'.Shows (printed p ops) ∧
      ∀ n ≤ scrolled p + 24, s.Lit p n → s'.Lit (printed p ops) n := by
  induction ops generalizing s p with
  | nil => exact ⟨s, rfl, h, fun n _ hlit => hlit⟩
  | cons op ops ih =>
    obtain ⟨t, ht, hshows, hlit⟩ := h.char hk.1
    obtain ⟨s', hs, hshows', hlit'⟩ := ih hshows (hk.2 t ht)
    have hgone := scrolled_le_strike p op.stroke
    refine ⟨s', ?_, hshows', fun n hn hl => hlit' n (by omega) (hlit n hn hl)⟩
    rw [List.foldlM_cons, ht]
    exact hs

/-! ### Calls -/

/-- The loop in front of a call writes the second byte of each character. -/
theorem whiten_mem (s : Screen) (x : Nat) :
    s.whiten.mem x = if s.vga ≤ x ∧ x < s.vga + 160 * 24 ∧ (x - s.vga) % 2 = 1 then 7
      else s.mem x := by
  have hfold : ∀ n ≤ 80 * 24,
      (List.range n).foldl (fun m i => write8 m (s.vga + 1 + 2 * i) 7) s.mem x =
        if s.vga ≤ x ∧ x < s.vga + 2 * n ∧ (x - s.vga) % 2 = 1 then 7 else s.mem x := by
    intro n hn
    induction n with
    | zero => exact (if_neg (by omega)).symm
    | succ n ih =>
      rw [List.range_succ, List.foldl_append, List.foldl_cons, List.foldl_nil, write8,
        ih (by omega)]
      split_ifs <;> first | rfl | omega
  have hall := hfold (80 * 24) (Nat.le_refl _)
  rw [show 2 * (80 * 24) = 160 * 24 by omega] at hall
  simpa only [Screen.whiten] using hall

theorem At.whiten {j : Nat} (h : s.At r j) : s.whiten.At r j := by
  obtain ⟨hr, hj, hl, he, hc, hi⟩ := h
  refine ⟨hr, hj, ?_, ?_, ?_, ?_⟩ <;> simp only [Screen.whiten]
  · exact hl
  · exact he
  · exact hc
  · exact hi

theorem Shows.whiten (h : s.Shows p) : s.whiten.Shows p ∧ s.whiten.Lit p (scrolled p + 24) := by
  have hvga := (whiten_within s).vga
  refine ⟨⟨h.cursor.whiten, fun i hi j hj => ?_, h.below⟩, fun i hi j hj => ?_⟩
  · rw [← h.text i hi j hj, charAt, whiten_mem, hvga]
    exact if_neg (by omega)
  · rw [colorAt, whiten_mem, hvga, if_pos (by omega), if_pos (by omega)]

/-- **A call** prints its characters on the sheet. -/
theorem Shows.kprintf {c : PrintCall} (h : s.Shows p) (hk : s.KeepsCall c)
    (hops : c.ops = some ops) :
    ∃ s', s.kprintf c = some s' ∧ s'.Shows (printed p ops) ∧
      s'.Lit (printed p ops) (scrolled p + 24) := by
  obtain ⟨hshows, hlit⟩ := h.whiten
  obtain ⟨s', hs, hshows', hlit'⟩ := hshows.chars (hk ops hops)
  refine ⟨s', ?_, hshows', hlit' _ (Nat.le_refl _) hlit⟩
  rw [Screen.kprintf, hops, Option.bind_some, hs]

theorem Inv.shows_sheet (h : s.Inv) : s.Shows s.sheet := by
  obtain ⟨r, j, h⟩ := h
  have hrow := h.row_eq
  obtain ⟨hr, hj, hl, he, hc, hi⟩ := h
  have hrow' : s.sheet.row = r := hrow
  have hgone : scrolled s.sheet = 0 := by
    rw [scrolled, hrow']
    omega
  have hcol : s.sheet.col = j := by
    show (s.lineAdr - s.vga) % 160 / 2 = j
    omega
  refine ⟨?_, fun i hi j hj => ?_, fun i hi j => ?_⟩
  · rw [hgone, hcol, hrow']
    exact ⟨hr, hj, hl, he, hc, hi⟩
  · rw [hgone, Nat.zero_add]
    exact (if_pos hi).symm
  · rw [hgone] at hi
    exact if_neg (by omega)

/-! ### Runs -/

/-- The sheet after a sequence of calls. -/
def sheetAfter (s : Screen) (calls : List PrintCall) : Sheet UInt8 :=
  printed s.sheet (calls.flatMap fun c => c.ops.getD [])

theorem Shows.calls {calls : List PrintCall} (h : s.Shows p)
    (hr : Run Screen.kprintf KeepsCall s calls s') :
    s'.Shows (printed p (calls.flatMap fun c => c.ops.getD [])) := by
  induction hr generalizing p with
  | nil => exact h
  | @cons t t' _ c calls hk ht _ ih =>
    obtain ⟨ops, hops, -⟩ := Option.bind_eq_some_iff.mp ht
    obtain ⟨u, hu, hshows, -⟩ := h.kprintf hk hops
    obtain rfl : u = t' := Option.some.inj (hu.symm.trans ht)
    rw [List.flatMap_cons, hops, Option.getD_some, printed, List.map_append, Sheet.type_append]
    exact ih hshows

/-- **The screen shows the end of one sheet**, on which all calls of a run have written one after
the other. -/
theorem screen_shows_sheet (h : s.Inv) {calls : List PrintCall}
    (hr : Run kprintf KeepsCall s calls s') : s'.Shows (s.sheetAfter calls) :=
  h.shows_sheet.calls hr

/-- **Colours.** When `c` returns, the rows that were on the screen before it are white, and those
that have come up in the meantime have the colour 0. -/
theorem colors_of_call (h : s.Inv) {calls : List PrintCall} {t : Screen}
    (hr : Run kprintf KeepsCall s calls t) {c : PrintCall} (hk : t.KeepsCall c)
    (hs : t.kprintf c = some s') : ∀ i < 24, ∀ j < 80, s'.colorAt i j =
      if scrolled (s.sheetAfter (calls ++ [c])) + i < scrolled (s.sheetAfter calls) + 24 then 7
      else 0 := by
  obtain ⟨ops, hops, -⟩ := Option.bind_eq_some_iff.mp hs
  have hshows : t.Shows (s.sheetAfter calls) := h.shows_sheet.calls hr
  obtain ⟨u, hu, -, hlit⟩ := hshows.kprintf hk hops
  obtain rfl : u = s' := Option.some.inj (hu.symm.trans hs)
  have hsheet : s.sheetAfter (calls ++ [c]) = printed (s.sheetAfter calls) ops := by
    rw [sheetAfter, sheetAfter, List.flatMap_append, List.flatMap_singleton, hops,
      Option.getD_some, printed, List.map_append, Sheet.type_append]
  rw [hsheet]
  exact hlit

theorem start_inv (mem : Mem) (V : Nat) : ((initial mem).mapVGA V).Inv :=
  (initial_inv mem).mapVGA rfl V

/-- A newline keeps the row count in step on the screen that the kernel begins with. -/
theorem start_keeps_newline (mem : Mem) (V : Nat) :
    ((initial mem).mapVGA V).KeepsCall (PrintCall.char 0x0A) := by
  intro ops hops
  have hnewline : (PrintCall.char 0x0A).ops = some [.newline] := ops_char (.inl rfl)
  obtain rfl : [CharOp.newline] = ops := Option.some.inj (hnewline.symm.trans hops)
  refine ⟨⟨nofun, ?_⟩, fun _ _ => trivial⟩
  simp only [Screen.whiten, Screen.mapVGA, initial]
  omega

/-- A newline on a screen full of `x`: the first row is blank. -/
theorem screen_shows_sheet_newline : ∃ s, Run kprintf KeepsCall
    ((initial fun _ => 0x78).mapVGA (kernbase + 0xb8000)) [PrintCall.char 0x0A] s ∧
    s.Shows (((initial fun _ => 0x78).mapVGA (kernbase + 0xb8000)).sheetAfter
      [PrintCall.char 0x0A]) := by
  have hinv := start_inv (fun _ => 0x78) (kernbase + 0xb8000)
  have hkeeps := start_keeps_newline (fun _ => 0x78) (kernbase + 0xb8000)
  obtain ⟨s, hs, -⟩ := kprintf_spec hinv (ops_char (b := 0x0A) (.inl rfl)) hkeeps
  have hrun : Run kprintf KeepsCall _ [PrintCall.char 0x0A] s := .cons hkeeps hs (.nil s)
  exact ⟨s, hrun, screen_shows_sheet hinv hrun⟩

theorem colors_of_call_newline : ∃ s,
    ((initial fun _ => 0x78).mapVGA (kernbase + 0xb8000)).kprintf (PrintCall.char 0x0A) = some s ∧
    ∀ i < 24, ∀ j < 80, s.colorAt i j =
      if scrolled (((initial fun _ => 0x78).mapVGA (kernbase + 0xb8000)).sheetAfter
          ([] ++ [PrintCall.char 0x0A])) + i <
        scrolled (((initial fun _ => 0x78).mapVGA (kernbase + 0xb8000)).sheetAfter []) + 24 then 7
      else 0 := by
  have hinv := start_inv (fun _ => 0x78) (kernbase + 0xb8000)
  have hkeeps := start_keeps_newline (fun _ => 0x78) (kernbase + 0xb8000)
  obtain ⟨s, hs, -⟩ := kprintf_spec hinv (ops_char (b := 0x0A) (.inl rfl)) hkeeps
  exact ⟨s, hs, colors_of_call hinv (.nil _) hkeeps hs⟩

end Screen

end Sbunix
