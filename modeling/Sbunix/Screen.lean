import Sbunix.Defs
import Sbunix.Lib.Runs
import Sbunix.Lib.Slice

/-!
# The screen

`sys/kprintf.c`: text goes to the first 24 rows of the VGA buffer, two bytes for a character.
Three static variables are kept between the calls of `kprintf`: the cursor, the end of its row and
a count of rows. When the count has reached 24, the end of a row scrolls the text.

A call is its format, which says what characters it prints (`format`), and the characters one
after the other (`Screen.char`).

* `Screen.Inv` — cursor, row end and row count in step with each other;
* `Screen.char_spec` — one character, and `screen_ok_of_run` — a sequence of calls: this stays so
  as long as no backspace comes at the beginning of a row, where the count is not taken back, and
  the count does not overflow.
-/

namespace Sbunix

open ByteMem Runs

/-! ### The format -/

/-- What `kprintf` does with a character. -/
inductive CharOp
  | newline
  | carriageReturn
  | backspace
  | put (c : UInt8)
  deriving DecidableEq, Repr

/-- `va_arg(valist, int)`. -/
def intArg (w : Nat) : Int := (w : Int).bmod (2 ^ 32)

/-- The loop that finds the highest digit; 64 rounds are enough for a word. -/
def digitCount (base : Nat) : Nat → Int → Nat → Nat
  | 0, _, digCount => digCount
  | n + 1, x, digCount =>
    if (base : Int) ≤ x then digitCount base n (x.tdiv base) (digCount * base) else digCount

/-- The character of a digit. -/
def digitChar (c : Int) : UInt8 :=
  if c < 10 then UInt8.ofNat ((c + 0x30) % 256).toNat
  else if c ≤ 15 then UInt8.ofNat (c + 0x37).toNat else 0x2D

/-- The loop that prints the digits. -/
def digitChars (base : Nat) : Nat → Int → Nat → List UInt8
  | 0, _, _ => []
  | n + 1, y, digCount =>
    if 0 < digCount then
      digitChar (y.tdiv digCount) :: digitChars base n (y.tmod digCount) (digCount / base)
    else []

def numberOps (base : Nat) (x : Int) : List CharOp :=
  (digitChars base 64 x (digitCount base 64 x 1)).map .put

/-- `%s`: newline and carriage return are obeyed in a string, a backspace is printed. -/
def stringOps (m : Mem) : Nat → Nat → Option (List CharOp)
  | 0, _ => none
  | n + 1, c =>
    if m c = 0 then some []
    else
      let op : CharOp :=
        if m c = 0x0A then .newline else if m c = 0x0D then .carriageReturn else .put (m c)
      (stringOps m n (c + 1)).map (op :: ·)

/-- The characters that the format at `fmt` prints; `i` arguments have been taken. A `%` at the
end of the format takes the NUL byte with it, and the scan goes on behind it. -/
def format (m : Mem) (args : Nat → Nat) : Nat → Nat → Nat → Option (List CharOp)
  | 0, _, _ => none
  | n + 1, fmt, i =>
    if m fmt = 0 then some []
    else if m fmt = 0x0A then (format m args n (fmt + 1) i).map (.newline :: ·)
    else if m fmt = 0x0D then (format m args n (fmt + 1) i).map (.carriageReturn :: ·)
    else if m fmt = 0x08 then (format m args n (fmt + 1) i).map (.backspace :: ·)
    else if m fmt ≠ 0x25 then (format m args n (fmt + 1) i).map (.put (m fmt) :: ·)
    else
      let d := m (fmt + 1)
      -- a conversion that is not known is skipped, and takes no argument
      if d = 0x5C then format m args n (fmt + 2) i
      else if d = 0x25 then (format m args n (fmt + 2) i).map (.put 0x25 :: ·)
      else if d = 0x64 then
        (format m args n (fmt + 2) (i + 1)).map (numberOps 10 (intArg (args i)) ++ ·)
      else if d = 0x6C ∧ m (fmt + 2) = 0x64 then
        (format m args n (fmt + 2) (i + 1)).map (numberOps 10 (args i % 2 ^ 64 : Nat) ++ ·)
      else if d = 0x63 then
        let c := UInt8.ofNat (args i % 256)
        (format m args n (fmt + 2) (i + 1)).map ((if c = 0x0A then .newline else .put c) :: ·)
      else if d = 0x73 then do
        let text ← stringOps m n (args i)
        (format m args n (fmt + 2) (i + 1)).map (text ++ ·)
      else if d = 0x78 then
        (format m args n (fmt + 2) (i + 1)).map
          ([.put 0x30, .put 0x78] ++ numberOps 16 (intArg (args i)) ++ ·)
      else if d = 0x70 then
        (format m args n (fmt + 2) (i + 1)).map
          ([.put 0x30, .put 0x78] ++ numberOps 16 (args i % 2 ^ 64 : Nat) ++ ·)
      else format m args n (fmt + 2) i

/-! ### The screen -/

/-- The buffer and the static variables. -/
structure Screen where
  mem : Mem
  vga : Nat
  lineAdr : Nat
  nextLineAdrs : Nat
  vLineCount : Int

/-- A loop that steps through all of memory has come by every address of one parity. -/
def rowFuel : Nat := 2 ^ 63

namespace Screen

/-- The static variables at the start. -/
def initial (mem : Mem) : Screen := ⟨mem, 0xb8000, 0xb8000, 0xb8000 + 160, 1⟩

def mapVGA (s : Screen) (vga : Nat) : Screen :=
  { s with
    vga := vga
    nextLineAdrs := vga + (s.nextLineAdrs - 0xb8000)
    lineAdr := vga + (s.lineAdr - 0xb8000) }

/-- `check_if_line_full`. -/
def checkIfLineFull (s : Screen) : Screen :=
  if s.lineAdr = s.nextLineAdrs then
    let s := { s with vLineCount := intSucc s.vLineCount }
    -- 23 rows move up, and the last one becomes empty
    if 24 < s.vLineCount then
      { s with
        mem := fill (copy s.mem (s.vga + 160) s.vga (160 * 23)) (s.vga + 160 * 23) 0 160
        lineAdr := s.nextLineAdrs - 160 }
    else { s with nextLineAdrs := s.nextLineAdrs + 160 }
  else s

/-- The loop of a newline: blanks up to the end of the row. -/
def padRow : Nat → Screen → Option Screen
  | 0, _ => none
  | n + 1, s =>
    if s.lineAdr ≠ s.nextLineAdrs then
      padRow n { s with mem := write8 s.mem s.lineAdr 0x20, lineAdr := s.lineAdr + 2 }
    else some s

/-- The loop of a carriage return. -/
def rewindRow : Nat → Screen → Option Screen
  | 0, _ => none
  | n + 1, s =>
    if s.lineAdr ≠ s.nextLineAdrs - 160 then rewindRow n { s with lineAdr := s.lineAdr - 2 }
    else some s

/-- One character. -/
def char (s : Screen) : CharOp → Option Screen
  | .newline => (padRow rowFuel s).map checkIfLineFull
  | .carriageReturn => rewindRow rowFuel s
  | .backspace =>
    let s :=
      -- the row count stays as it is
      if s.lineAdr = s.nextLineAdrs - 160 then { s with nextLineAdrs := s.nextLineAdrs - 160 }
      else s
    some { s with mem := write8 s.mem (s.lineAdr - 2) 0x20, lineAdr := s.lineAdr - 2 }
  | .put c =>
    some (checkIfLineFull { s with mem := write8 s.mem s.lineAdr c, lineAdr := s.lineAdr + 2 })

/-- The loop that `kprintf` begins with: the colour of all characters. -/
def whiten (s : Screen) : Screen :=
  { s with mem := (List.range (80 * 24)).foldl (fun m i => write8 m (s.vga + 1 + 2 * i) 7) s.mem }

end Screen

/-- A call of `kprintf`: the memory with the format and the strings, the address of the format, and
the arguments. -/
structure PrintCall where
  mem : Mem
  fmt : Nat
  args : Nat → Nat

def PrintCall.ops (c : PrintCall) : Option (List CharOp) := format c.mem c.args (2 ^ 64) c.fmt 0

/-- A format of one character. -/
def PrintCall.char (b : UInt8) : PrintCall :=
  ⟨fun x => if x = 0x1000 then b else 0, 0x1000, fun _ => 0⟩

namespace Screen

def kprintf (s : Screen) (c : PrintCall) : Option Screen :=
  c.ops.bind fun ops => ops.foldlM char s.whiten

/-- The row of the cursor. -/
def row (s : Screen) : Nat := (s.lineAdr - s.vga) / 160

/-- **The character keeps the row count in step**: it is no backspace at the beginning of a row, and
the count is not the largest `int`. -/
def Keeps (s : Screen) (op : CharOp) : Prop :=
  (op = .backspace → s.lineAdr ≠ s.nextLineAdrs - 160) ∧ s.vLineCount + 1 < 2 ^ 31

/-- … which is so for all characters of a list. -/
def KeepsAll : Screen → List CharOp → Prop
  | _, [] => True
  | s, op :: ops => s.Keeps op ∧ ∀ s', s.char op = some s' → KeepsAll s' ops

/-- … and of a call. -/
def KeepsCall (s : Screen) (c : PrintCall) : Prop := ∀ ops, c.ops = some ops → s.whiten.KeepsAll ops

/-- The cursor is on a character of the rows `0` to `23`, and the row end is the end of its row. -/
structure Placed (s : Screen) : Prop where
  cursor : s.vga ≤ s.lineAdr ∧ s.lineAdr < s.vga + 160 * 24 ∧ (s.lineAdr - s.vga) % 2 = 0
  rowEnd : s.nextLineAdrs = s.vga + 160 * (s.row + 1)

/-- Two states of one screen: nothing is written outside the text. -/
structure Within (s s' : Screen) : Prop where
  vga : s'.vga = s.vga
  mem : ∀ x, x < s.vga ∨ s.vga + 160 * 24 ≤ x → s'.mem x = s.mem x

/-- **What the screen is for.** -/
structure Ok (s : Screen) : Prop where
  placed : s.Placed
  /-- A newline goes to the next row, or stays in the bottom row and scrolls. -/
  newline : s.Keeps .newline → ∃ s', s.char .newline = some s' ∧
    s'.lineAdr = s.vga + 160 * min (s.row + 1) 23
  /-- So it is after every character of a call. -/
  during : ∀ c ops p q, c.ops = some ops → s.KeepsCall c → ops = p ++ q →
    ∃ s', p.foldlM char s.whiten = some s' ∧ s'.Placed ∧ Within s s'
  /-- A call returns, if its format ends. -/
  returns : ∀ c ops, c.ops = some ops → s.KeepsCall c → ∃ s', s.kprintf c = some s'

/-- **The invariant**: the cursor is on character `j` of row `r`, and the row count is the number
of the row; in the bottom row it goes on when the text scrolls. -/
structure At (s : Screen) (r j : Nat) : Prop where
  row : r < 24
  column : j < 80
  lineAdr : s.lineAdr = s.vga + 160 * r + 2 * j
  rowEnd : s.nextLineAdrs = s.vga + 160 * (r + 1)
  count : s.vLineCount = r + 1 ∨ r = 23 ∧ 24 ≤ s.vLineCount
  int : s.vLineCount < 2 ^ 31

def Inv (s : Screen) : Prop := ∃ r j, s.At r j

variable {s s' s'' : Screen} {op : CharOp} {ops : List CharOp} {r j : Nat}

theorem Within.refl (s : Screen) : Within s s := ⟨rfl, fun _ _ => rfl⟩

theorem Within.trans (h : Within s s') (h' : Within s' s'') : Within s s'' :=
  ⟨h'.vga.trans h.vga, fun x hx => (h'.mem x (by rwa [h.vga])).trans (h.mem x hx)⟩

theorem At.row_eq (h : s.At r j) : s.row = r := by
  have hj := h.column
  rw [Screen.row, h.lineAdr]
  omega

theorem At.placed (h : s.At r j) : s.Placed := by
  refine ⟨?_, ?_⟩
  · obtain ⟨hr, hj, hl, -, -, -⟩ := h
    omega
  · rw [h.row_eq, h.rowEnd]

/-! ### One character -/

/-- **The end of a row.** With the cursor there, `check_if_line_full` goes on to the next row or
scrolls. -/
theorem checkIfLineFull_full (hr : r < 24) (hl : s.lineAdr = s.nextLineAdrs)
    (he : s.nextLineAdrs = s.vga + 160 * (r + 1))
    (hc : s.vLineCount = r + 1 ∨ r = 23 ∧ 24 ≤ s.vLineCount) (hi : s.vLineCount + 1 < 2 ^ 31) :
    s.checkIfLineFull.At (min (r + 1) 23) 0 ∧ Within s s.checkIfLineFull := by
  -- the count does not overflow
  have hsucc : intSucc s.vLineCount = s.vLineCount + 1 := by
    rw [intSucc, Int.bmod_eq_of_le] <;> omega
  simp only [checkIfLineFull, if_pos hl, hsucc]
  by_cases h24 : 24 < s.vLineCount + 1
  · -- the bottom row: the text moves up
    obtain rfl : r = 23 := by omega
    rw [if_pos h24]
    refine ⟨⟨by omega, by omega, ?_, by simp [he], .inr ⟨rfl, ?_⟩, hi⟩, ⟨rfl, ?_⟩⟩
    · simp only [he]
      omega
    · simp only
      omega
    · intro x hx
      have hrow : ¬(s.vga + 160 * 23 ≤ x ∧ x < s.vga + 160 * 23 + 160) := by omega
      simp only [fill_apply, if_neg hrow]
      apply copy_of_out
      omega
  · -- any other row: the count is its number, and there is one below
    rw [if_neg h24]
    have hmin : min (r + 1) 23 = r + 1 := by omega
    rw [hmin]
    refine ⟨⟨by omega, by omega, ?_, ?_, .inl ?_, hi⟩, ⟨rfl, fun _ _ => rfl⟩⟩
    · simp only [hl, he]
      omega
    · simp only [he]
      omega
    · simp only
      omega

theorem checkIfLineFull_of_ne (h : s.lineAdr ≠ s.nextLineAdrs) : s.checkIfLineFull = s := by
  simp only [checkIfLineFull, if_neg h]

/-- The loop of a newline ends at the end of the row, `k` characters on. -/
theorem padRow_spec {n k : Nat} (hk : k < n) (hl : s.lineAdr + 2 * k = s.nextLineAdrs) :
    ∃ m, padRow n s = some { s with mem := m, lineAdr := s.nextLineAdrs } ∧
      ∀ x, x < s.lineAdr ∨ s.nextLineAdrs ≤ x → m x = s.mem x := by
  induction k generalizing s n with
  | zero =>
    obtain ⟨n, rfl⟩ : ∃ n', n = n' + 1 := ⟨n - 1, by omega⟩
    have hend : s.lineAdr = s.nextLineAdrs := by omega
    refine ⟨s.mem, ?_, fun _ _ => rfl⟩
    rw [padRow, if_neg (not_not_intro hend)]
    exact congrArg (fun l => some { s with lineAdr := l }) hend
  | succ k ih =>
    obtain ⟨n, rfl⟩ : ∃ n', n = n' + 1 := ⟨n - 1, by omega⟩
    have hne : s.lineAdr ≠ s.nextLineAdrs := by omega
    rw [padRow, if_pos hne]
    -- a blank at the cursor, and the rest of the row from the next character on
    have hk' : k < n := by omega
    obtain ⟨m, hm, hout⟩ := ih (s := { s with
      mem := write8 s.mem s.lineAdr 0x20, lineAdr := s.lineAdr + 2 }) hk' (by simp only; omega)
    refine ⟨m, hm, ?_⟩
    intro x hx
    rw [hout x (by simp only; omega)]
    exact write8_of_ne (by omega)

/-- The loop of a carriage return ends at the beginning of the row. -/
theorem rewindRow_spec {n k : Nat} (hk : k < n) (hl : s.lineAdr = s.nextLineAdrs - 160 + 2 * k) :
    rewindRow n s = some { s with lineAdr := s.nextLineAdrs - 160 } := by
  induction k generalizing s n with
  | zero =>
    obtain ⟨n, rfl⟩ : ∃ n', n = n' + 1 := ⟨n - 1, by omega⟩
    have hend : s.lineAdr = s.nextLineAdrs - 160 := by omega
    rw [rewindRow, if_neg (not_not_intro hend), ← hend]
  | succ k ih =>
    obtain ⟨n, rfl⟩ : ∃ n', n = n' + 1 := ⟨n - 1, by omega⟩
    have hne : s.lineAdr ≠ s.nextLineAdrs - 160 := by omega
    rw [rewindRow, if_pos hne]
    exact ih (by omega) (by simp only; omega)

/-- A row has 80 characters. -/
theorem lt_rowFuel {k : Nat} (hk : k ≤ 80) : k < rowFuel := by
  have h : 80 < rowFuel := by decide
  omega

theorem At.newline (h : s.At r j) (hi : s.vLineCount + 1 < 2 ^ 31) :
    ∃ s', s.char .newline = some s' ∧ s'.At (min (r + 1) 23) 0 ∧ Within s s' := by
  obtain ⟨hr, hj, hl, he, hc, -⟩ := h
  obtain ⟨m, hm, hout⟩ := padRow_spec (k := 80 - j) (lt_rowFuel (by omega)) (s := s) (by omega)
  -- with the blanks the row is full
  obtain ⟨hat, hwithin⟩ := checkIfLineFull_full
    (s := { s with mem := m, lineAdr := s.nextLineAdrs }) hr rfl he hc hi
  refine ⟨_, by rw [char, hm, Option.map_some], hat, ?_⟩
  have hpad : Within s { s with mem := m, lineAdr := s.nextLineAdrs } := by
    refine ⟨rfl, ?_⟩
    intro x hx
    apply hout
    omega
  exact hpad.trans hwithin

theorem At.put (h : s.At r j) (hi : s.vLineCount + 1 < 2 ^ 31) (c : UInt8) :
    ∃ s', s.char (.put c) = some s' ∧ s'.Inv ∧ Within s s' := by
  obtain ⟨hr, hj, hl, he, hc, hint⟩ := h
  have hwrite : Within s { s with mem := write8 s.mem s.lineAdr c, lineAdr := s.lineAdr + 2 } := by
    refine ⟨rfl, ?_⟩
    intro x hx
    exact write8_of_ne (by omega)
  by_cases hlast : j = 79
  · -- the last character of the row
    obtain ⟨hat, hwithin⟩ := checkIfLineFull_full
      (s := { s with mem := write8 s.mem s.lineAdr c, lineAdr := s.lineAdr + 2 }) hr
      (by simp only; omega) he hc hi
    exact ⟨_, rfl, ⟨_, _, hat⟩, hwrite.trans hwithin⟩
  · -- the row goes on
    refine ⟨_, rfl, ?_⟩
    rw [checkIfLineFull_of_ne (by simp only; omega)]
    refine ⟨⟨r, j + 1, hr, by omega, ?_, he, hc, hint⟩, hwrite⟩
    simp only [hl]
    omega

theorem At.carriageReturn (h : s.At r j) :
    ∃ s', s.char .carriageReturn = some s' ∧ s'.At r 0 ∧ Within s s' := by
  obtain ⟨hr, hj, hl, he, hc, hi⟩ := h
  refine ⟨_, rewindRow_spec (k := j) (lt_rowFuel (by omega)) (by omega), ?_, ⟨rfl, fun _ _ => rfl⟩⟩
  refine ⟨hr, by omega, ?_, he, hc, hi⟩
  simp only [he]
  omega

theorem At.backspace (h : s.At r j) (hne : s.lineAdr ≠ s.nextLineAdrs - 160) :
    ∃ s', s.char .backspace = some s' ∧ s'.At r (j - 1) ∧ Within s s' := by
  obtain ⟨hr, hj, hl, he, hc, hi⟩ := h
  -- not at the beginning of the row
  have hj0 : j ≠ 0 := by
    rintro rfl
    exact hne (by omega)
  refine ⟨_, rfl, ?_⟩
  simp only [if_neg hne]
  refine ⟨⟨hr, by omega, ?_, he, hc, hi⟩, rfl, ?_⟩
  · simp only [hl]
    omega
  · intro x hx
    exact write8_of_ne (by omega)

/-- **One character**: it is printed inside the text, and the variables stay in step. -/
theorem char_spec (h : s.Inv) (hk : s.Keeps op) :
    ∃ s', s.char op = some s' ∧ s'.Inv ∧ Within s s' := by
  obtain ⟨r, j, h⟩ := h
  obtain ⟨hback, hi⟩ := hk
  cases op with
  | newline =>
    obtain ⟨s', hs, hat, hw⟩ := h.newline hi
    exact ⟨s', hs, ⟨_, _, hat⟩, hw⟩
  | carriageReturn =>
    obtain ⟨s', hs, hat, hw⟩ := h.carriageReturn
    exact ⟨s', hs, ⟨_, _, hat⟩, hw⟩
  | backspace =>
    obtain ⟨s', hs, hat, hw⟩ := h.backspace (hback rfl)
    exact ⟨s', hs, ⟨_, _, hat⟩, hw⟩
  | put c => exact h.put hi c

/-! ### Calls -/

theorem KeepsAll.of_append {p q : List CharOp} (h : s.KeepsAll (p ++ q)) : s.KeepsAll p := by
  induction p generalizing s with
  | nil => trivial
  | cons op p ih => exact ⟨h.1, fun s' hs => ih (h.2 s' hs)⟩

/-- The characters of a list. -/
theorem chars_spec (h : s.Inv) (hk : s.KeepsAll ops) :
    ∃ s', ops.foldlM char s = some s' ∧ s'.Inv ∧ Within s s' := by
  induction ops generalizing s with
  | nil => exact ⟨s, rfl, h, Within.refl s⟩
  | cons op ops ih =>
    obtain ⟨t, ht, hinv, hwithin⟩ := char_spec h hk.1
    obtain ⟨s', hs, hinv', hwithin'⟩ := ih hinv (hk.2 t ht)
    refine ⟨s', ?_, hinv', hwithin.trans hwithin'⟩
    rw [List.foldlM_cons, ht]
    exact hs

theorem whiten_within (s : Screen) : Within s s.whiten := by
  refine ⟨by simp only [whiten], ?_⟩
  intro x hx
  -- only the second byte of each character is written
  have hfold : ∀ n ≤ 80 * 24,
      (List.range n).foldl (fun m i => write8 m (s.vga + 1 + 2 * i) 7) s.mem x = s.mem x := by
    intro n hn
    induction n with
    | zero => rfl
    | succ n ih =>
      rw [List.range_succ, List.foldl_append, List.foldl_cons, List.foldl_nil,
        write8_of_ne (by omega)]
      exact ih (by omega)
  have hall := hfold (80 * 24) (by omega)
  simpa only [whiten] using hall

theorem Inv.whiten (h : s.Inv) : s.whiten.Inv := by
  obtain ⟨r, j, hr, hj, hl, he, hc, hi⟩ := h
  refine ⟨r, j, hr, hj, ?_, ?_, ?_, ?_⟩ <;> simp only [Screen.whiten]
  · exact hl
  · exact he
  · exact hc
  · exact hi

/-- **A call**: up to every character of it the variables stay in step. -/
theorem during_spec {c : PrintCall} {p q : List CharOp} (h : s.Inv) (hops : c.ops = some (p ++ q))
    (hk : s.KeepsCall c) :
    ∃ s', p.foldlM char s.whiten = some s' ∧ s'.Inv ∧ Within s s' := by
  obtain ⟨s', hs, hinv, hwithin⟩ := chars_spec h.whiten (hk _ hops).of_append
  exact ⟨s', hs, hinv, (whiten_within s).trans hwithin⟩

theorem kprintf_spec {c : PrintCall} (h : s.Inv) (hops : c.ops = some ops) (hk : s.KeepsCall c) :
    ∃ s', s.kprintf c = some s' ∧ s'.Inv ∧ Within s s' := by
  obtain ⟨s', hs, hinv, hwithin⟩ := during_spec h (p := ops) (q := []) (by simpa using hops) hk
  refine ⟨s', ?_, hinv, hwithin⟩
  rw [kprintf, hops, Option.bind_some, hs]

theorem kprintf_inv {c : PrintCall} (h : s.Inv) (hk : s.KeepsCall c) (hs : s.kprintf c = some s') :
    s'.Inv ∧ Within s s' := by
  obtain ⟨ops, hops, -⟩ := Option.bind_eq_some_iff.mp hs
  obtain ⟨t, ht, hspec⟩ := kprintf_spec h hops hk
  obtain rfl : t = s' := Option.some.inj (ht.symm.trans hs)
  exact hspec

theorem Inv.ok (h : s.Inv) : s.Ok := by
  refine ⟨?_, ?_, ?_, ?_⟩
  · obtain ⟨r, j, h⟩ := h
    exact h.placed
  · intro hk
    obtain ⟨r, j, h⟩ := h
    obtain ⟨s', hs, hat, hwithin⟩ := h.newline hk.2
    refine ⟨s', hs, ?_⟩
    rw [hat.lineAdr, hwithin.vga, h.row_eq]
    omega
  · intro c ops p q hops hk hpq
    obtain ⟨s', hs, ⟨r, j, hinv⟩, hwithin⟩ := during_spec h (hops.trans (congrArg some hpq)) hk
    exact ⟨s', hs, hinv.placed, hwithin⟩
  · intro c ops hops hk
    obtain ⟨s', hs, -⟩ := kprintf_spec h hops hk
    exact ⟨s', hs⟩

/-! ### Runs -/

theorem initial_inv (mem : Mem) : (initial mem).Inv :=
  ⟨0, 0, by omega, by omega, rfl, rfl, .inl rfl, by simp only [initial]; omega⟩

theorem Inv.mapVGA (h : s.Inv) (hv : s.vga = 0xb8000) (V : Nat) : (s.mapVGA V).Inv := by
  obtain ⟨r, j, hr, hj, hl, he, hc, hi⟩ := h
  refine ⟨r, j, hr, hj, ?_, ?_, hc, hi⟩
  · simp only [Screen.mapVGA]
    omega
  · simp only [Screen.mapVGA]
    omega

theorem inv_of_run {calls : List PrintCall} (hr : Run kprintf KeepsCall s calls s') (h : s.Inv) :
    s'.Inv ∧ Within s s' := by
  refine hr.invariant (I := fun t => t.Inv ∧ Within s t) ⟨h, Within.refl s⟩ ?_
  rintro t c t' ⟨hinv, hwithin⟩ hk ht
  obtain ⟨hinv', hwithin'⟩ := kprintf_inv hinv hk ht
  exact ⟨hinv', hwithin.trans hwithin'⟩

/-- **The cursor stays in the text** in every run of calls none of which prints a backspace at the
beginning of a row or lets the row count overflow. -/
theorem screen_ok_of_run {mem : Mem} {V : Nat} {pre calls : List PrintCall} {t s : Screen}
    (hpre : Run kprintf KeepsCall (initial mem) pre t)
    (hrun : Run kprintf KeepsCall (t.mapVGA V) calls s) :
    s.Ok ∧ (∀ x, x < V ∨ V + 160 * 24 ≤ x → s.mem x = t.mem x) ∧
      (24 < s.vLineCount → s.row = 23) := by
  obtain ⟨ht, hwithin⟩ := inv_of_run hpre (initial_inv mem)
  obtain ⟨hs, hmem⟩ := inv_of_run hrun (ht.mapVGA hwithin.vga V)
  refine ⟨hs.ok, hmem.mem, ?_⟩
  intro hcount
  obtain ⟨r, j, h⟩ := hs
  have hr := h.row
  -- a count above 24 is not the number of a row
  rcases h.count with hc | ⟨rfl, -⟩
  · omega
  · exact h.row_eq

theorem ops_char {b : UInt8} (h : b = 0x0A ∨ b = 0x08) :
    (PrintCall.char b).ops = some [if b = 0x0A then .newline else .backspace] := by
  obtain ⟨n, hn⟩ : ∃ n, 2 ^ 64 = n + 1 + 1 := ⟨2 ^ 64 - 2, by omega⟩
  have hend : format (PrintCall.char b).mem (PrintCall.char b).args (n + 1) (0x1000 + 1) 0 =
      some [] := by
    rw [format]
    exact if_pos rfl
  rw [PrintCall.ops, hn, format]
  rcases h with rfl | rfl
  all_goals simp [PrintCall.char] at hend ⊢; simp [hend]

/-- A newline on the screen that the kernel begins with. -/
theorem screen_ok_of_run_newline : ∃ s, Run kprintf KeepsCall
    ((initial fun _ => 0).mapVGA (kernbase + 0xb8000)) [PrintCall.char 0x0A] s ∧
    s.Ok ∧ (∀ x, x < kernbase + 0xb8000 ∨ kernbase + 0xb8000 + 160 * 24 ≤ x → s.mem x = 0) ∧
      (24 < s.vLineCount → s.row = 23) := by
  have hops : (PrintCall.char 0x0A).ops = some [.newline] := ops_char (.inl rfl)
  have hinv : ((initial fun _ => 0).mapVGA (kernbase + 0xb8000)).Inv :=
    (initial_inv _).mapVGA rfl _
  have hkeeps : ((initial fun _ => 0).mapVGA (kernbase + 0xb8000)).KeepsCall
      (PrintCall.char 0x0A) := by
    intro ops hops'
    obtain rfl : [CharOp.newline] = ops := Option.some.inj (hops.symm.trans hops')
    refine ⟨⟨nofun, ?_⟩, fun _ _ => trivial⟩
    simp only [whiten, Screen.mapVGA, initial]
    omega
  obtain ⟨s, hs, -⟩ := kprintf_spec hinv hops hkeeps
  have hrun : Run kprintf KeepsCall _ [PrintCall.char 0x0A] s := .cons hkeeps hs (.nil s)
  exact ⟨s, hrun, screen_ok_of_run (.nil _) hrun⟩

theorem kprintf_singleton (s : Screen) {c : PrintCall} (h : c.ops = some [op]) :
    s.kprintf c = s.whiten.char op := by
  rw [kprintf, h, Option.bind_some, List.foldlM_cons]
  exact bind_pure _

theorem whiten_start (mem : Mem) (V : Nat) :
    ((initial mem).mapVGA V).whiten.vga = V ∧ ((initial mem).mapVGA V).whiten.lineAdr = V ∧
      ((initial mem).mapVGA V).whiten.nextLineAdrs = V + 160 := by
  refine ⟨?_, ?_, ?_⟩ <;> simp only [whiten, Screen.mapVGA, initial]
  omega

/-- At the beginning of a row the row end is taken back, the row count is not. -/
theorem char_backspace_of_eq (h : s.lineAdr = s.nextLineAdrs - 160) :
    s.char .backspace = some { s with
      mem := write8 s.mem (s.lineAdr - 2) 0x20
      lineAdr := s.lineAdr - 2
      nextLineAdrs := s.nextLineAdrs - 160 } := by
  simp only [char, if_pos h]

/-- **A backspace at the beginning of the text** takes the cursor out of it and writes a blank
there. -/
theorem cursor_leaves_text : ∃ s, Run kprintf (fun _ _ => True)
    ((initial fun _ => 0).mapVGA (kernbase + 0xb8000)) [PrintCall.char 0x08] s ∧
    s.vga = kernbase + 0xb8000 ∧ s.lineAdr = s.vga - 2 ∧ s.mem (s.vga - 2) = 0x20 ∧ ¬s.Ok := by
  have hops : (PrintCall.char 0x08).ops = some [.backspace] := ops_char (.inr rfl)
  have hpos : 2 ≤ kernbase + 0xb8000 := by decide
  generalize kernbase + 0xb8000 = V at *
  have hchars := kprintf_singleton ((initial fun _ => 0).mapVGA V) hops
  obtain ⟨hvga, hline, hend⟩ := whiten_start (fun _ => 0) V
  generalize ((initial fun _ => 0).mapVGA V).whiten = u at *
  -- the cursor is at the beginning of the first row
  rw [char_backspace_of_eq (by omega)] at hchars
  refine ⟨_, .cons trivial hchars (.nil _), hvga, ?_, ?_, ?_⟩
  · simp only [hvga, hline]
  · simp only [hvga, hline, write8_self]
  · intro hok
    obtain ⟨hcursor, -⟩ := hok.placed
    simp only [hvga, hline] at hcursor
    omega

end Screen

end Sbunix
