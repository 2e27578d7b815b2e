import Sbunix.Shell
import Sbunix.ShellInput
import Sbunix.StatusLine

/-!
# The keyboard

`_key_press_handler` of `sys/idt.c`: the scancodes, the two modifiers, and what a key does to the
input buffer, to the screen and, for Ctrl-C, to the process in the foreground. A `Desk` is all of
this together with the shell that waits in `read_command`.

* `modifiers_right_iff` — when the modifiers are what is held down: a release of a shift key resets
  them both;
* `echo_of_run` — what is typed, with its corrections, is what the screen shows.
-/

namespace Sbunix

open ByteMem Runs Typewriter ShellInput

/-! ### Tables -/

/-- `kbdus`. -/
def kbdus : List UInt8 :=
  [0, 27] ++ text "1234567890-=" ++ [8, 9] ++ text "qwertyuiop[]" ++ [10, 0] ++
    text "asdfghjkl;'\x60" ++ [0] ++ text "\\zxcvbnm,./" ++ [0] ++ text "*" ++ [0] ++ text " " ++
    List.replicate 16 0 ++ text "-" ++ [0, 0, 0] ++ text "+" ++ List.replicate 49 0

/-- `CAPS_kbdus`. -/
def capsKbdus : List UInt8 :=
  [0, 27] ++ text "!@#$%^&*()_+" ++ [8, 9] ++ text "QWERTYUIOP\x7b\x7d" ++ [10, 0] ++
    text "ASDFGHJKL:\"~" ++ [0] ++ text "|ZXCVBNM<>?" ++ [0] ++ text "*" ++ [0] ++ text " " ++
    List.replicate 16 0 ++ text "-" ++ [0, 0, 0] ++ text "+" ++ List.replicate 49 0

/-- The keys that only show their name. -/
def keyName : Nat → Option (List UInt8)
  | 58 => some (text "LAST PRESSED: Caps")
  | 77 => some (text "LAST PRESSED: Right Arrow")
  | 75 => some (text "LAST PRESSED: Left Arrow")
  | 72 => some (text "LAST PRESSED: Up Arrow")
  | 71 => some (text "LAST PRESSED: Home")
  | 70 => some (text "LAST PRESSED: Scroll Lock")
  | 73 => some (text "LAST PRESSED: Page Up")
  | 81 => some (text "LAST PRESSED: Page Down")
  | 82 => some (text "LAST PRESSED: Insert")
  | 83 => some (text "LAST PRESSED: Delete")
  | 79 => some (text "LAST PRESSED: End")
  | 80 => some (text "LAST PRESSED: Down Arrow")
  | 56 => some (text "LAST PRESSED: Alt")
  | 15 => some (text "LAST PRESSED: Tab")
  | 1 => some (text "LAST PRESSED: Esc")
  | 59 => some (text "LAST PRESSED: F1")
  | 60 => some (text "LAST PRESSED: F2")
  | 61 => some (text "LAST PRESSED: F3")
  | 62 => some (text "LAST PRESSED: F4")
  | 63 => some (text "LAST PRESSED: F5")
  | 64 => some (text "LAST PRESSED: F6")
  | 65 => some (text "LAST PRESSED: F7")
  | 66 => some (text "LAST PRESSED: F8")
  | 67 => some (text "LAST PRESSED: F9")
  | 68 => some (text "LAST PRESSED: F10")
  | 87 => some (text "LAST PRESSED: F11")
  | 88 => some (text "LAST PRESSED: F12")
  | _ => none

/-! ### What is printed -/

/-- A format without conversions. -/
def PrintCall.lit (s : List UInt8) : PrintCall :=
  ⟨fun x => s.getD (x - 0x1000) 0, 0x1000, fun _ => 0⟩

/-- `kprintf("%c", c)`. -/
def PrintCall.percentC (c : UInt8) : PrintCall :=
  ⟨fun x => (text "%c").getD (x - 0x1000) 0, 0x1000, fun _ => c.toNat⟩

namespace Terminal

/-- `writeChar(c, 0)`, with the warnings that it prints. -/
def writeCharPrinting (t : Terminal) (c : UInt8) : Terminal × List PrintCall :=
  let t := t.store c
  let (t, full) :=
    if t.writePosition = t.bufferEnd then
      let t := t.readChar.2
      if t.readPosition ≠ t.stdStart then
        ({ t with writePosition := t.stdStart, indicator := 1 }, [])
      else (t, [PrintCall.lit (text
        "Warning: Input Buffer Full.. Cant Take more input.. Please Type Enter\n")])
    else (t, [])
  let (t, behind) :=
    if t.writePosition + 1 = t.readPosition then
      ({ t with indicator := 1 }, [PrintCall.lit (text
        "Warning: Input Buffer Full..Cant Take more input..Please Type Enter\n")])
    else (t, [])
  (if c = 10 then { t with readline := intSucc t.readline } else t, full ++ behind)

/-- `handleBackspace`, with the backspaces that it prints. -/
def handleBackspacePrinting (t : Terminal) : Terminal × List PrintCall :=
  let t :=
    if t.writePosition = t.readPosition then { t with mem := write8 t.mem t.writePosition 0 } else t
  let (t, first) :=
    if t.readPosition < t.writePosition ∧ t.indicator = 0 ∧ t.mem (t.writePosition - 1) ≠ 10 then
      let t := { t with
        writePosition :=
          if t.writePosition = t.stdStart then t.stdStart else t.writePosition - 1 }
      ({ t with mem := write8 t.mem t.writePosition 0 }, [PrintCall.char 0x08])
    else (t, [])
  if t.writePosition < t.readPosition ∧ t.indicator = 1 ∧ t.mem (t.writePosition - 1) ≠ 10 then
    let t :=
      if t.writePosition = t.stdStart then { t with writePosition := t.bufferEnd, indicator := 0 }
      else { t with writePosition := t.writePosition - 1 }
    ({ t with mem := write8 t.mem t.writePosition 0 }, first ++ [PrintCall.char 0x08])
  else (t, first)

theorem writeCharPrinting_fst (t : Terminal) (c : UInt8) :
    (t.writeCharPrinting c).1 = t.writeChar c 0 := by
  have h0 : ¬ (0 : Int) = 1 := by decide
  simp only [writeCharPrinting, writeChar, if_neg h0]
  split_ifs <;> rfl

theorem handleBackspacePrinting_fst (t : Terminal) :
    t.handleBackspacePrinting.1 = t.handleBackspace := by
  simp only [handleBackspacePrinting, handleBackspace]
  split_ifs <;> rfl

end Terminal

/-! ### The desk -/

/-- The modifiers: `shift` and `control`. -/
structure Modifiers where
  shift : Bool
  control : Bool
  deriving DecidableEq

/-- The input buffer with its history, the screen, the modifiers, and the kernel, which `Ctrl-C`
acts on; and the shell: what `read_command` has collected, and the commands that it has returned. -/
structure Desk where
  session : Session
  screen : Screen
  modifiers : Modifiers
  kernel : Kernel
  reading : Reading
  commands : List (List UInt8)

namespace Desk

def keypressBar (d : Desk) (str : List UInt8) : Desk :=
  { d with screen := d.screen.keypressBar str 14 }

def kprintf (d : Desk) (c : PrintCall) : Option Desk :=
  (d.screen.kprintf c).map fun s => { d with screen := s }

/-- `writeChar(c, 0)`. -/
def writeChar (d : Desk) (c : UInt8) : Option Desk := do
  let session ← d.session.step (.typed c)
  (d.session.terminal.writeCharPrinting c).2.foldlM kprintf { d with session := session }

def handleBackspace (d : Desk) : Option Desk := do
  let session ← d.session.step .backspace
  d.session.terminal.handleBackspacePrinting.2.foldlM kprintf { d with session := session }

/-- Ctrl-C. -/
def ctrlC (d : Desk) : Option Desk :=
  let pid := d.kernel.foregroundPid
  if pid ≠ 0 then do
    let kernel ← { d.kernel with foregroundPid := 0 }.exitpid pid
    return { d with kernel := kernel }
  else some d

/-- The keys without a case of their own. -/
def characterKey (d : Desk) (a : Nat) : Option Desk :=
  let small := kbdus.getD a 0
  let large := capsKbdus.getD a 0
  if d.modifiers.shift then do
    let d := d.keypressBar
      (text "LAST PRESSED: shift+'" ++ [small] ++ text "'='" ++ [large] ++ text "'")
    let d ← d.kprintf (.percentC large)
    d.writeChar large
  else if d.modifiers.control then do
    let d := d.keypressBar (text "LAST PRESSED: ^" ++ [large])
    let d ← if large = 0x48 then d.handleBackspace else some d
    if large = 0x43 then d.ctrlC else some d
  else do
    let d := d.keypressBar (text "LAST PRESSED: " ++ [small])
    let d ← d.kprintf (.percentC small)
    d.writeChar small

/-- `_key_press_handler`, for the byte of the keyboard controller. -/
def keyPressHandler (d : Desk) (a : UInt8) : Option Desk :=
  if a < 128 then
    match a.toNat with
    | 42 => some { d with modifiers := { d.modifiers with shift := true } }
    | 54 => some { d with modifiers := { d.modifiers with shift := true } }
    | 29 => some { d with modifiers := { d.modifiers with control := true } }
    | 14 => (d.keypressBar (text "LAST PRESSED: Backspace")).handleBackspace
    | 28 => do
      let d ← (d.keypressBar (text "LAST PRESSED: Enter")).writeChar 10
      d.kprintf (.lit (text "\n"))
    | 57 => do
      let d ← (d.keypressBar (text "LAST PRESSED: Space")).writeChar 0x20
      d.kprintf (.lit (text " "))
    | a => (keyName a).elim (d.characterKey a) fun name => some (d.keypressBar name)
  else
    match a.toNat with
    -- the cases fall through
    | 170 => some { d with modifiers := ⟨false, false⟩ }
    | 182 => some { d with modifiers := ⟨false, false⟩ }
    | 157 => some { d with modifiers := { d.modifiers with control := false } }
    | _ => some d

/-- `getchar` of the shell: `readFile` on descriptor 0 delivers a newline as NUL. -/
def getchar (d : Desk) : UInt8 :=
  if d.session.terminal.readChar.1 = 10 then 0 else d.session.terminal.readChar.1

/-- The string that `read_command` returns. -/
def command (s : Reading) : List UInt8 := (List.range s.i).map s.inputStr.byte

/-- A turn of the loop of `read_command`; when it returns, the shell comes back to it with a new
block. -/
def shellTurn (junk : Nat → Nat → UInt8) (d : Desk) : Option Desk := do
  let session ← d.session.step .read
  let reading := d.reading.char d.getchar
  return if reading.returned = true then
    { d with
      session := session
      reading := .start (junk d.commands.length)
      commands := d.commands ++ [command reading] }
  else { d with session := session, reading := reading }

end Desk

/-- The desk in front of the first key. -/
def Desk.start (junk : Nat → Nat → UInt8) (mem : Mem) (page : Nat) (screen : Screen) (k : Kernel) :
    Desk where
  session := .start mem page
  screen := screen
  modifiers := ⟨false, false⟩
  kernel := k
  reading := .start (junk 0)
  commands := []

/-- What happens at the desk: an interrupt of the keyboard, or a turn of the shell. -/
inductive DeskEvent
  | scancode (a : UInt8)
  | getchar

def Desk.step (junk : Nat → Nat → UInt8) (d : Desk) : DeskEvent → Option Desk
  | .scancode a => d.keyPressHandler a
  | .getchar => d.shellTurn junk

/-! ### What it is for -/

/-- What a scancode is for the line that is edited. -/
def keyOf (m : Modifiers) (a : UInt8) : Option Key :=
  if a < 128 then
    match a.toNat with
    | 42 => none
    | 54 => none
    | 29 => none
    | 14 => some .backspace
    | 28 => some (.typed 10)
    | 57 => some (.typed 0x20)
    | a => (keyName a).elim
      (if m.shift then some (.typed (capsKbdus.getD a 0))
      else if m.control then if capsKbdus.getD a 0 = 0x48 then some .backspace else none
      else some (.typed (kbdus.getD a 0)))
      fun _ => none
  else none

/-- The modifiers after a scancode. -/
def Modifiers.after (m : Modifiers) (a : UInt8) : Modifiers :=
  if a = 42 ∨ a = 54 then { m with shift := true }
  else if a = 29 then { m with control := true }
  else if a = 170 ∨ a = 182 then ⟨false, false⟩
  else if a = 157 then { m with control := false }
  else m

/-- The character that a key shows on the screen. -/
def echo (c : UInt8) : CharOp := if c = 0x0A then .newline else .put c

variable {t : Terminal} {s s' : Screen} {p : Sheet UInt8} {d d' : Desk} {unread : List UInt8}

/-! ### Single characters -/

theorem format_start (c : PrintCall) : ∃ n, c.ops = format c.mem c.args (n + 3) c.fmt 0 :=
  ⟨2 ^ 64 - 3, congrArg (fun n => format c.mem c.args n c.fmt 0) (by omega)⟩

theorem format_end {m : Mem} {args : Nat → Nat} {n fmt i : Nat} (h : m fmt = 0) :
    format m args (n + 1) fmt i = some [] := by
  rw [format, if_pos h]

theorem ops_lit_newline : (PrintCall.lit (text "\n")).ops = some [.newline] := by
  obtain ⟨n, hn⟩ := format_start (.lit (text "\n"))
  have hstart : (PrintCall.lit (text "\n")).mem (PrintCall.lit (text "\n")).fmt = 0x0A := by decide
  rw [hn, format, hstart, if_neg (by decide), if_pos rfl, format_end (by decide)]
  rfl

theorem ops_lit_space : (PrintCall.lit (text " ")).ops = some [.put 0x20] := by
  obtain ⟨n, hn⟩ := format_start (.lit (text " "))
  have hstart : (PrintCall.lit (text " ")).mem (PrintCall.lit (text " ")).fmt = 0x20 := by decide
  rw [hn, format, hstart, if_neg (by decide), if_neg (by decide), if_neg (by decide),
    if_neg (by decide), if_pos (by decide), format_end (by decide)]
  rfl

theorem ops_percentC (c : UInt8) : (PrintCall.percentC c).ops = some [echo c] := by
  obtain ⟨n, hn⟩ := format_start (.percentC c)
  have hmem : ∀ k, (PrintCall.percentC c).mem ((PrintCall.percentC c).fmt + k) =
      (text "%c").getD k 0 := fun k => by
    simp only [PrintCall.percentC, Nat.add_sub_cancel_left]
  have hstart : (PrintCall.percentC c).mem (PrintCall.percentC c).fmt = 0x25 := hmem 0
  have hnext : (PrintCall.percentC c).mem ((PrintCall.percentC c).fmt + 1) = 0x63 := hmem 1
  have hlast : (PrintCall.percentC c).mem ((PrintCall.percentC c).fmt + 2) = 0 := hmem 2
  have harg : UInt8.ofNat ((PrintCall.percentC c).args 0 % 256) = c := by
    show UInt8.ofNat (c.toNat % 256) = c
    simp
  rw [hn, format]
  simp [hstart, hnext, harg, echo, @format_end _ (PrintCall.percentC c).args (n + 1) _ 1 hlast]

namespace Screen

theorem Keeps.whiten {op : CharOp} (h : s.Keeps op) : s.whiten.Keeps op := by
  simp only [Keeps, Screen.whiten]
  exact h

/-- **A call that prints one character.** -/
theorem Shows.print (h : s.Shows p) {c : PrintCall} {op : CharOp} (hops : c.ops = some [op])
    (hk : s.Keeps op) : ∃ s', s.kprintf c = some s' ∧ s'.Shows (p.strike 80 0x20 op.stroke) := by
  have hkeeps : s.KeepsCall c := by
    intro ops hops'
    obtain rfl : [op] = ops := Option.some.inj (hops.symm.trans hops')
    exact ⟨hk.whiten, fun _ _ => trivial⟩
  obtain ⟨s', hs, hshows, -⟩ := h.kprintf hkeeps hops
  exact ⟨s', hs, hshows⟩

/-- At the beginning of a row the cursor is in the first column. -/
theorem Shows.col_ne_zero (h : s.Shows p) (hne : s.lineAdr ≠ s.nextLineAdrs - 160) : p.col ≠ 0 := by
  obtain ⟨-, -, hl, he, -, -⟩ := h.cursor
  omega

end Screen

/-! ### The calls of the input buffer -/

namespace Terminal

theorem handleBackspacePrinting_empty (heq : t.writePosition = t.readPosition) :
    t.handleBackspacePrinting.2 = [] := by
  have hlt : ¬ t.readPosition < t.writePosition := by omega
  have hlt' : ¬ t.writePosition < t.readPosition := by omega
  simp only [handleBackspacePrinting, if_pos heq, hlt, hlt', false_and, if_false]

theorem handleBackspacePrinting_finished (hne : t.writePosition ≠ t.readPosition)
    (h10 : t.mem (t.writePosition - 1) = 10) : t.handleBackspacePrinting.2 = [] := by
  simp only [handleBackspacePrinting, if_neg hne, h10, ne_eq, not_true_eq_false, and_false,
    if_false]

theorem handleBackspacePrinting_erase (hs : t.writePosition ≠ t.stdStart)
    (h10 : t.mem (t.writePosition - 1) ≠ 10)
    (hdir : t.readPosition < t.writePosition ∧ t.indicator = 0 ∨
      t.writePosition < t.readPosition ∧ t.indicator = 1) :
    t.handleBackspacePrinting.2 = [PrintCall.char 0x08] := by
  have hne : t.writePosition ≠ t.readPosition := by omega
  rcases hdir with ⟨hlt, hi⟩ | ⟨hlt, hi⟩
  · have hno : ¬ (0 : Nat) = 1 := by decide
    simp only [handleBackspacePrinting, if_neg hne, if_neg hs, hlt, hi, h10, ne_eq,
      not_false_eq_true, and_self, if_true, hno, false_and, and_false, if_false]
  · have hno : ¬ (1 : Nat) = 0 := by decide
    simp only [handleBackspacePrinting, if_neg hne, if_neg hs, hlt, hi, h10, ne_eq,
      not_false_eq_true, and_self, if_true, hno, false_and, and_false, if_false, List.nil_append]

/-- **`handleBackspace`** prints a backspace where it takes a character away. -/
theorem Holds.backspaces (h : t.Holds unread)
    (hclear : t.indicator = 1 → t.writePosition ≠ t.stdStart) :
    t.handleBackspacePrinting.2 = if rubOut unread = unread then [] else [PrintCall.char 0x08] := by
  -- the last character decides
  have hlast : ∀ l, unread = l ++ [t.mem (t.writePosition - 1)] →
      t.writePosition ≠ t.readPosition → t.writePosition ≠ t.stdStart →
      (t.readPosition < t.writePosition ∧ t.indicator = 0 ∨
        t.writePosition < t.readPosition ∧ t.indicator = 1) →
      t.handleBackspacePrinting.2 =
        if rubOut unread = unread then [] else [PrintCall.char 0x08] := by
    rintro l rfl hne hs hdir
    rw [rubOut_concat]
    by_cases h10 : t.mem (t.writePosition - 1) = 10
    · rw [if_pos h10, if_pos rfl, handleBackspacePrinting_finished hne h10]
    · rw [if_neg h10, handleBackspacePrinting_erase hs h10 hdir]
      refine (if_neg fun hl => ?_).symm
      exact absurd (congrArg List.length hl) (by simp)
  rcases h.shape with ⟨hi, hs, hle, hw, hu⟩ | ⟨hi, hs, hlt, hre, hz, hu⟩
  · by_cases heq : t.writePosition = t.readPosition
    · rw [heq, Nat.sub_self, slice_zero] at hu
      rw [handleBackspacePrinting_empty heq, hu]
      rfl
    · obtain ⟨n, hn⟩ := Nat.exists_eq_add_of_lt (show 0 < t.writePosition - t.readPosition by omega)
      rw [Nat.zero_add] at hn
      rw [hn, slice_succ_right, show t.readPosition + n = t.writePosition - 1 by omega] at hu
      exact hlast _ hu heq (by omega) (Or.inl ⟨by omega, hi⟩)
  · have hws := hclear hi
    obtain ⟨n, hn⟩ := Nat.exists_eq_add_of_lt (show 0 < t.writePosition - t.stdStart by omega)
    rw [Nat.zero_add] at hn
    rw [hn, slice_succ_right, show t.stdStart + n = t.writePosition - 1 by omega,
      ← List.append_assoc] at hu
    exact hlast _ hu (by omega) hws (Or.inr ⟨hlt, hi⟩)

/-- **`writeChar`** does not warn while two bytes of the page are free, and no line is pending when
the writer comes to its end. -/
theorem Holds.no_warning (h : t.Holds unread) {c : UInt8} (hlen : unread.length + 2 < 4096)
    (hclear : t.writePosition + 1 = t.bufferEnd → t.readline = 0) :
    (t.writeCharPrinting c).2 = [] := by
  have hpage := h.page
  by_cases hend : (t.store c).writePosition = (t.store c).bufferEnd
  · -- the writer wraps
    have hwrite : t.writePosition + 1 = t.bufferEnd := hend
    have hidle : (t.store c).readChar = (0, t.store c) := readChar_idle (hclear hwrite)
    rcases h.shape with ⟨hi, hs, hle, hw, hu⟩ | ⟨hi, hs, hlt, hr, hz, hu⟩
    · rw [hu, slice_length] at hlen
      have hr : (t.store c).readPosition ≠ (t.store c).stdStart := by
        show t.readPosition ≠ t.stdStart
        omega
      have hr' : ¬ (t.store c).stdStart + 1 = (t.store c).readPosition := by
        show ¬ t.stdStart + 1 = t.readPosition
        omega
      simp only [writeCharPrinting, if_pos hend, hidle, if_pos hr, if_neg hr', List.append_nil]
    · rw [hu, List.length_append, slice_length, slice_length] at hlen
      omega
  · have hr : ¬ (t.store c).writePosition + 1 = (t.store c).readPosition := by
      show ¬ t.writePosition + 1 + 1 = t.readPosition
      rcases h.shape with ⟨hi, hs, hle, hw, hu⟩ | ⟨hi, hs, hlt, hr, hz, hu⟩
      · omega
      · rw [hu, List.length_append, slice_length, slice_length] at hlen
        omega
    simp only [writeCharPrinting, if_neg hend, if_neg hr, List.append_nil]

end Terminal

/-! ### What a key does -/

namespace Desk

/-- **What the keys come to** that leave the modifiers alone: a name in the status line, Ctrl-C, a
backspace, or a character, which is printed in front of the buffer or behind it. -/
inductive Pressed (d : Desk) : Option Key → Desk → Prop
  | shown (str : List UInt8) : Pressed d none (d.keypressBar str)
  | quiet : Pressed d none d
  | interrupted (str : List UInt8) {d' : Desk} (hs : (d.keypressBar str).ctrlC = some d') :
    Pressed d none d'
  | erased (str : List UInt8) {d' : Desk} (hs : (d.keypressBar str).handleBackspace = some d') :
    Pressed d (some .backspace) d'
  | printed (str : List UInt8) {c : UInt8} {call : PrintCall} {d₁ d' : Desk}
    (hops : call.ops = some [echo c]) (h₁ : (d.keypressBar str).kprintf call = some d₁)
    (hs : d₁.writeChar c = some d') : Pressed d (some (.typed c)) d'
  | written (str : List UInt8) {c : UInt8} {call : PrintCall} {d₁ d' : Desk}
    (hops : call.ops = some [echo c]) (h₁ : (d.keypressBar str).writeChar c = some d₁)
    (hs : d₁.kprintf call = some d') : Pressed d (some (.typed c)) d'

/-- A key of the table, under the modifiers. -/
def characterOf (m : Modifiers) (a : Nat) : Option Key :=
  if m.shift then some (.typed (capsKbdus.getD a 0))
  else if m.control then if capsKbdus.getD a 0 = 0x48 then some .backspace else none
  else some (.typed (kbdus.getD a 0))

theorem characterKey_cases {a : Nat} (hs : d.characterKey a = some d') :
    d.Pressed (characterOf d.modifiers a) d' := by
  unfold characterKey at hs
  rw [characterOf]
  by_cases hshift : d.modifiers.shift = true
  · simp only [if_pos hshift, Option.bind_eq_bind] at hs ⊢
    obtain ⟨d₁, h₁, hs⟩ := Option.bind_eq_some_iff.mp hs
    exact .printed _ (ops_percentC _) h₁ hs
  · by_cases hcontrol : d.modifiers.control = true
    · simp only [if_neg hshift, if_pos hcontrol, Option.bind_eq_bind] at hs ⊢
      by_cases hback : capsKbdus.getD a 0 = 0x48
      · have hno : ¬ capsKbdus.getD a 0 = 0x43 := by
          rw [hback]
          decide
        simp only [if_pos hback, if_neg hno] at hs ⊢
        obtain ⟨d₁, h₁, hs⟩ := Option.bind_eq_some_iff.mp hs
        obtain rfl := Option.some.inj hs
        exact .erased _ h₁
      · simp only [if_neg hback, Option.bind_some] at hs ⊢
        split_ifs at hs
        · exact .interrupted _ hs
        · obtain rfl := Option.some.inj hs
          exact .shown _
    · simp only [if_neg hshift, if_neg hcontrol, Option.bind_eq_bind] at hs ⊢
      obtain ⟨d₁, h₁, hs⟩ := Option.bind_eq_some_iff.mp hs
      exact .printed _ (ops_percentC _) h₁ hs

theorem ne_of_toNat_ne {a b : UInt8} (h : a.toNat ≠ b.toNat) : a ≠ b := by
  rintro rfl
  exact h rfl

/-- **What an interrupt of the keyboard does.** -/
theorem keyPressHandler_cases {a : UInt8} (hs : d.keyPressHandler a = some d') :
    (d' = { d with modifiers := d.modifiers.after a } ∧ keyOf d.modifiers a = none) ∨
      (d.modifiers.after a = d.modifiers ∧ d.Pressed (keyOf d.modifiers a) d') := by
  unfold keyPressHandler at hs
  by_cases hlt : a < 128
  · have hnat : a.toNat < 128 := hlt
    rw [if_pos hlt] at hs
    split at hs
    case h_1 h =>
      obtain rfl : a = 42 := UInt8.toNat_inj.mp h
      exact Or.inl ⟨(Option.some.inj hs).symm, rfl⟩
    case h_2 h =>
      obtain rfl : a = 54 := UInt8.toNat_inj.mp h
      exact Or.inl ⟨(Option.some.inj hs).symm, rfl⟩
    case h_3 h =>
      obtain rfl : a = 29 := UInt8.toNat_inj.mp h
      exact Or.inl ⟨(Option.some.inj hs).symm, rfl⟩
    case h_4 h =>
      obtain rfl : a = 14 := UInt8.toNat_inj.mp h
      exact Or.inr ⟨rfl, .erased _ hs⟩
    case h_5 h =>
      obtain rfl : a = 28 := UInt8.toNat_inj.mp h
      obtain ⟨d₁, h₁, hs⟩ := Option.bind_eq_some_iff.mp hs
      exact Or.inr ⟨rfl, .written _ ops_lit_newline h₁ hs⟩
    case h_6 h =>
      obtain rfl : a = 57 := UInt8.toNat_inj.mp h
      obtain ⟨d₁, h₁, hs⟩ := Option.bind_eq_some_iff.mp hs
      exact Or.inr ⟨rfl, .written _ ops_lit_space h₁ hs⟩
    case h_7 h42 h54 h29 h14 h28 h57 =>
      have hafter : d.modifiers.after a = d.modifiers := by
        rw [Modifiers.after, if_neg, if_neg, if_neg, if_neg]
        · exact ne_of_toNat_ne (b := 157) (Nat.ne_of_lt (hnat.trans (by decide)))
        · exact not_or.mpr ⟨ne_of_toNat_ne (b := 170) (Nat.ne_of_lt (hnat.trans (by decide))),
            ne_of_toNat_ne (b := 182) (Nat.ne_of_lt (hnat.trans (by decide)))⟩
        · exact ne_of_toNat_ne (b := 29) h29
        · exact not_or.mpr ⟨ne_of_toNat_ne (b := 42) h42, ne_of_toNat_ne (b := 54) h54⟩
      have hkey : keyOf d.modifiers a = (keyName a.toNat).elim (characterOf d.modifiers a.toNat)
          fun _ => none := by
        rw [keyOf, if_pos hlt]
        split
        · next h => exact absurd h h42
        · next h => exact absurd h h54
        · next h => exact absurd h h29
        · next h => exact absurd h h14
        · next h => exact absurd h h28
        · next h => exact absurd h h57
        · rfl
      rw [hkey]
      refine Or.inr ⟨hafter, ?_⟩
      cases hname : keyName a.toNat with
      | none =>
        rw [hname] at hs
        exact characterKey_cases hs
      | some name =>
        rw [hname] at hs
        obtain rfl := Option.some.inj hs
        exact .shown name
  · have hnat : 128 ≤ a.toNat := Nat.le_of_not_lt hlt
    rw [if_neg hlt] at hs
    have hkey : keyOf d.modifiers a = none := if_neg hlt
    rw [hkey]
    split at hs
    case h_1 h =>
      obtain rfl : a = 170 := UInt8.toNat_inj.mp h
      exact Or.inl ⟨(Option.some.inj hs).symm, rfl⟩
    case h_2 h =>
      obtain rfl : a = 182 := UInt8.toNat_inj.mp h
      exact Or.inl ⟨(Option.some.inj hs).symm, rfl⟩
    case h_3 h =>
      obtain rfl : a = 157 := UInt8.toNat_inj.mp h
      exact Or.inl ⟨(Option.some.inj hs).symm, rfl⟩
    case h_4 h170 h182 h157 =>
      obtain rfl := Option.some.inj hs
      refine Or.inr ⟨?_, .quiet⟩
      rw [Modifiers.after, if_neg, if_neg, if_neg, if_neg]
      · exact ne_of_toNat_ne (b := 157) h157
      · exact not_or.mpr ⟨ne_of_toNat_ne (b := 170) h170, ne_of_toNat_ne (b := 182) h182⟩
      · exact ne_of_toNat_ne (b := 29) (Nat.ne_of_gt (Nat.lt_of_lt_of_le (by decide) hnat))
      · exact not_or.mpr ⟨ne_of_toNat_ne (b := 42)
            (Nat.ne_of_gt (Nat.lt_of_lt_of_le (by decide) hnat)),
          ne_of_toNat_ne (b := 54) (Nat.ne_of_gt (Nat.lt_of_lt_of_le (by decide) hnat))⟩

/-! ### The line -/

/-- Only the screen and the kernel may differ. -/
structure SameCore (d d' : Desk) : Prop where
  session : d'.session = d.session
  modifiers : d'.modifiers = d.modifiers
  reading : d'.reading = d.reading
  commands : d'.commands = d.commands

theorem SameCore.refl (d : Desk) : SameCore d d := ⟨rfl, rfl, rfl, rfl⟩

theorem SameCore.trans {d'' : Desk} (h : SameCore d d') (h' : SameCore d' d'') : SameCore d d'' :=
  ⟨h'.session.trans h.session, h'.modifiers.trans h.modifiers, h'.reading.trans h.reading,
    h'.commands.trans h.commands⟩

theorem sameCore_screen (d : Desk) (s : Screen) : SameCore d { d with screen := s } :=
  ⟨rfl, rfl, rfl, rfl⟩

theorem sameCore_bar (d : Desk) (str : List UInt8) : SameCore d (d.keypressBar str) :=
  d.sameCore_screen _

theorem kprintf_core {c : PrintCall} (hs : d.kprintf c = some d') : SameCore d d' := by
  obtain ⟨s, -, rfl⟩ := Option.map_eq_some_iff.mp hs
  exact d.sameCore_screen s

theorem prints_core {calls : List PrintCall} (hs : calls.foldlM kprintf d = some d') :
    SameCore d d' := by
  induction calls generalizing d with
  | nil =>
    obtain rfl := Option.some.inj hs
    exact SameCore.refl d
  | cons c calls ih =>
    rw [List.foldlM_cons] at hs
    obtain ⟨d₁, h₁, hs⟩ := Option.bind_eq_some_iff.mp hs
    exact (kprintf_core h₁).trans (ih hs)

/-- Ctrl-C touches the kernel only. -/
theorem ctrlC_core (hs : d.ctrlC = some d') : SameCore d d' ∧ d'.screen = d.screen := by
  unfold ctrlC at hs
  dsimp only at hs
  split_ifs at hs
  · obtain ⟨kernel, -, hs⟩ := Option.bind_eq_some_iff.mp hs
    obtain rfl := Option.some.inj hs
    exact ⟨⟨rfl, rfl, rfl, rfl⟩, rfl⟩
  · obtain rfl := Option.some.inj hs
    exact ⟨SameCore.refl d, rfl⟩

/-- The line is edited, and everything else but the screen stays. -/
structure Edits (d : Desk) (k : Key) (d' : Desk) : Prop where
  session : d.session.step k = some d'.session
  modifiers : d'.modifiers = d.modifiers
  reading : d'.reading = d.reading
  commands : d'.commands = d.commands

theorem Edits.of_core {k : Key} {d₁ d₂ : Desk} (h₀ : SameCore d d₁) (h : Edits d₁ k d₂)
    (h₁ : SameCore d₂ d') : Edits d k d' := by
  refine ⟨?_, h₁.modifiers.trans (h.modifiers.trans h₀.modifiers),
    h₁.reading.trans (h.reading.trans h₀.reading),
    h₁.commands.trans (h.commands.trans h₀.commands)⟩
  rw [← h₀.session, h.session, h₁.session]

theorem writeChar_edits {c : UInt8} (hs : d.writeChar c = some d') : Edits d (.typed c) d' := by
  rw [writeChar, Option.bind_eq_bind] at hs
  obtain ⟨session, hsession, hs⟩ := Option.bind_eq_some_iff.mp hs
  have h := prints_core hs
  exact ⟨by rw [hsession, h.session], h.modifiers, h.reading, h.commands⟩

theorem handleBackspace_edits (hs : d.handleBackspace = some d') : Edits d .backspace d' := by
  rw [handleBackspace, Option.bind_eq_bind] at hs
  obtain ⟨session, hsession, hs⟩ := Option.bind_eq_some_iff.mp hs
  have h := prints_core hs
  exact ⟨by rw [hsession, h.session], h.modifiers, h.reading, h.commands⟩

/-- What a key does with the line: it edits it, or leaves it alone. -/
theorem Pressed.core {k : Option Key} (h : d.Pressed k d') :
    k.elim (SameCore d d') (Edits d · d') := by
  cases h with
  | shown str => exact sameCore_bar d str
  | quiet => exact SameCore.refl d
  | interrupted str hs => exact (sameCore_bar d str).trans (ctrlC_core hs).1
  | erased str hs => exact .of_core (sameCore_bar d str) (handleBackspace_edits hs) (SameCore.refl d')
  | printed str hops h₁ hs =>
    exact .of_core ((sameCore_bar d str).trans (kprintf_core h₁)) (writeChar_edits hs)
      (SameCore.refl d')
  | written str hops h₁ hs =>
    exact .of_core (sameCore_bar d str) (writeChar_edits h₁) (kprintf_core hs)

theorem Pressed.modifiers {k : Option Key} (h : d.Pressed k d') : d'.modifiers = d.modifiers := by
  cases k with
  | none => exact SameCore.modifiers h.core
  | some k => exact Edits.modifiers h.core

/-- The modifiers after an interrupt. -/
theorem keyPressHandler_modifiers {a : UInt8} (hs : d.keyPressHandler a = some d') :
    d'.modifiers = d.modifiers.after a := by
  rcases keyPressHandler_cases hs with ⟨rfl, -⟩ | ⟨hafter, h⟩
  · rfl
  · rw [h.modifiers, hafter]

end Desk

/-! ### The modifiers -/

namespace DeskEvent

/-- Whether key `k` is down after an event, if it was `down` before. -/
def press (k : UInt8) (down : Bool) : DeskEvent → Bool
  | scancode a => if a = k then true else if a = k + 128 then false else down
  | getchar => down

/-- Key `k` is down after the events, which begin with no key down. -/
def down (k : UInt8) (es : List DeskEvent) : Bool := es.foldl (press k) false

/-- The modifiers that are held down. -/
def held (es : List DeskEvent) : Modifiers := ⟨down 42 es || down 54 es, down 29 es⟩

/-- A shift key is released only while the other one and Ctrl are up. -/
def Alone (es : List DeskEvent) : DeskEvent → Prop
  | scancode a => (a = 170 → down 54 es = false ∧ down 29 es = false) ∧
      (a = 182 → down 42 es = false ∧ down 29 es = false)
  | getchar => True

theorem down_concat (k : UInt8) (es : List DeskEvent) (e : DeskEvent) :
    down k (es ++ [e]) = press k (down k es) e := by
  rw [down, List.foldl_append]
  rfl

/-- One byte keeps the modifiers right unless it releases a shift key that is not alone. -/
theorem after_held (es : List DeskEvent) (a : UInt8) :
    (held es).after a = held (es ++ [scancode a]) ↔ Alone es (scancode a) := by
  have h42 : (42 : UInt8) + 128 = 170 := by decide
  have h54 : (54 : UInt8) + 128 = 182 := by decide
  have h29 : (29 : UInt8) + 128 = 157 := by decide
  simp only [held, down_concat, press, Modifiers.after, Alone, h42, h54, h29]
  generalize down 42 es = x, down 54 es = y, down 29 es = z
  by_cases ha : a = 42 ∨ a = 54 ∨ a = 29 ∨ a = 170 ∨ a = 182 ∨ a = 157
  · rcases ha with rfl | rfl | rfl | rfl | rfl | rfl <;> revert x y z <;> decide
  · -- no byte of a modifier
    push Not at ha
    obtain ⟨h₁, h₂, h₃, h₄, h₅, h₆⟩ := ha
    simp [h₁, h₂, h₃, h₄, h₅, h₆]

end DeskEvent

namespace Desk

open DeskEvent

variable {junk : Nat → Nat → UInt8} {es : List DeskEvent} {e : DeskEvent}

theorem shellTurn_frame (hs : d.shellTurn junk = some d') :
    d'.modifiers = d.modifiers ∧ d'.screen = d.screen := by
  rw [shellTurn, Option.bind_eq_bind] at hs
  obtain ⟨session, -, hs⟩ := Option.bind_eq_some_iff.mp hs
  obtain rfl := Option.some.inj hs
  split <;> exact ⟨rfl, rfl⟩

/-- **One event**: the modifiers stay right exactly when a released shift key is alone. -/
theorem right_step {done : List DeskEvent} (h : d.modifiers = held done)
    (hs : d.step junk e = some d') : d'.modifiers = held (done ++ [e]) ↔ Alone done e := by
  cases e with
  | scancode a => rw [keyPressHandler_modifiers hs, h, after_held]
  | getchar =>
    rw [(shellTurn_frame hs).1, h]
    simp only [held, down_concat, press, Alone]

/-- The modifiers are right after each of the events. -/
theorem right_of_run {done : List DeskEvent} (h : d.modifiers = held done)
    (hr : Run (Desk.step junk) (fun _ _ => True) d es d') :
    (∀ p t, p <+: es → Run (Desk.step junk) (fun _ _ => True) d p t →
      t.modifiers = held (done ++ p)) ↔ ∀ p e, p ++ [e] <+: es → Alone (done ++ p) e := by
  induction hr generalizing done with
  | nil d =>
    constructor
    · intro _ p e hp
      exact absurd (List.prefix_nil.mp hp) (by simp)
    · intro _ p t hp ht
      obtain rfl := List.prefix_nil.mp hp
      cases ht
      rw [List.append_nil, h]
  | @cons d d₁ d' e es hok hs hr ih =>
    constructor
    · intro hall p e' hp
      have h₁ : d₁.modifiers = held (done ++ [e]) :=
        hall [e] d₁ ⟨es, rfl⟩ (.cons trivial hs (.nil d₁))
      cases p with
      | nil =>
        obtain ⟨rfl, -⟩ := List.cons_prefix_cons.mp hp
        rw [List.append_nil]
        exact (right_step h hs).mp h₁
      | cons e₀ p =>
        obtain ⟨rfl, hp'⟩ := List.cons_prefix_cons.mp hp
        have hrest := (ih h₁).mp (fun q t hq ht => ?_) p e' hp'
        · rwa [List.append_assoc] at hrest
        · rw [List.append_assoc]
          exact hall (e₀ :: q) t (List.cons_prefix_cons.mpr ⟨rfl, hq⟩) (.cons trivial hs ht)
    · intro hall p t hp ht
      have halone := hall [] e ⟨es, rfl⟩
      rw [List.append_nil] at halone
      have h₁ := (right_step h hs).mpr halone
      cases ht with
      | nil => rw [List.append_nil, h]
      | @cons _ d₁' _ e₀ p _ hs' ht =>
        obtain ⟨rfl, hp'⟩ := List.cons_prefix_cons.mp hp
        obtain rfl : d₁ = d₁' := Option.some.inj (hs.symm.trans hs')
        have hrest := (ih h₁).mpr (fun q e' hq => ?_) p t hp' ht
        · rwa [List.append_assoc] at hrest
        · rw [List.append_assoc]
          exact hall (e₀ :: q) e' (List.cons_prefix_cons.mpr ⟨rfl, hq⟩)

/-- **The modifiers are what is held down** all through a run exactly when no shift key is released
while the other one or Ctrl is down: the release resets both modifiers. -/
theorem modifiers_right_iff (h : d.modifiers = ⟨false, false⟩)
    (hr : Run (Desk.step junk) (fun _ _ => True) d es d') :
    (∀ p t, p <+: es → Run (Desk.step junk) (fun _ _ => True) d p t → t.modifiers = held p) ↔
      ∀ p e, p ++ [e] <+: es → Alone p e :=
  @right_of_run _ _ _ _ [] h hr

/-- Shift is pressed and released. -/
theorem modifiers_right_iff_shift : ∃ d', Run (Desk.step fun _ _ => 0) (fun _ _ => True)
    (start (fun _ _ => 0) (fun _ => 0) 0x1000 (Screen.initial fun _ => 0) (shell []))
    [.scancode 42, .scancode 170] d' ∧
    ((∀ p t, p <+: [.scancode 42, .scancode 170] → Run (Desk.step fun _ _ => 0) (fun _ _ => True)
      (start (fun _ _ => 0) (fun _ => 0) 0x1000 (Screen.initial fun _ => 0) (shell [])) p t →
        t.modifiers = held p) ↔
      ∀ p e, p ++ [e] <+: [.scancode 42, .scancode 170] → Alone p e) := by
  have hrun : ∃ d', Run (Desk.step fun _ _ => 0) (fun _ _ => True)
      (start (fun _ _ => 0) (fun _ => 0) 0x1000 (Screen.initial fun _ => 0) (shell []))
      [.scancode 42, .scancode 170] d' :=
    ⟨_, .cons trivial rfl (.cons trivial rfl (.nil _))⟩
  obtain ⟨d', hr⟩ := hrun
  exact ⟨d', hr, modifiers_right_iff rfl hr⟩

end Desk

/-! ### The echo -/

theorem Screen.Keeps.bar {op : CharOp} (h : s.Keeps op) (first stop : Nat) (str : List UInt8)
    (color : UInt8) : (s.bar first stop str color).Keeps op := h

namespace Desk

/-- **The key is echoed**: the buffer takes it with two bytes to spare, and the cursor can follow. -/
def Follows (d : Desk) : Key → Prop
  | .typed c => c ≠ 0 ∧ d.session.text.length + 2 < d.session.delivered.length + 4096 ∧
      d.session.Clear (.typed c) ∧ d.screen.Keeps (echo c)
  | .backspace => d.session.Clear .backspace ∧
      (rubOut d.session.text ≠ d.session.text → d.screen.Keeps .backspace)
  | .read => True

/-- Every key that edits the line is echoed. -/
def Echoes (d : Desk) : DeskEvent → Prop
  | .scancode a => ∀ k, keyOf d.modifiers a = some k → d.Follows k
  | .getchar => True

/-- **The screen shows the text**: behind `t₀`, which has been delivered, `new` has been typed, and
it stands behind what was on the sheet `p`. -/
structure Echoed (t₀ : List UInt8) (p : Sheet UInt8) (d : Desk) : Prop where
  queued : d.session.Queued
  base : t₀.length ≤ d.session.delivered.length
  sheet : ∃ new q, d.session.text = t₀ ++ new ∧ d.screen.Shows q ∧
    SameText 80 (p.type 80 0x20 (new.map fun c => (echo c).stroke)) q

variable {t₀ : List UInt8} {q : Sheet UInt8} {c : UInt8}

theorem kprintf_shows {call : PrintCall} {op : CharOp} (h : d.screen.Shows q)
    (hops : call.ops = some [op]) (hk : d.screen.Keeps op) (hs : d.kprintf call = some d') :
    d'.screen.Shows (q.strike 80 0x20 op.stroke) := by
  obtain ⟨s, hprint, rfl⟩ := Option.map_eq_some_iff.mp hs
  obtain ⟨u, hu, hshows⟩ := h.print hops hk
  obtain rfl : u = s := Option.some.inj (hu.symm.trans hprint)
  exact hshows

/-- The status line is apart from the text. -/
theorem keypressBar_apart (d : Desk) (str : List UInt8) : SameCore d (d.keypressBar str) ∧
    (∀ q, d.screen.Shows q → (d.keypressBar str).screen.Shows q) ∧
      ∀ op, d.screen.Keeps op → (d.keypressBar str).screen.Keeps op :=
  ⟨sameCore_bar d str, fun _ h => h.bar 25 30 str rfl rfl, fun _ h => h.bar 0xF32 0xF6E str 14⟩

theorem writeChar_of_quiet (h : (d.session.terminal.writeCharPrinting c).2 = []) :
    ∃ session, d.writeChar c = some { d with session := session } := by
  obtain ⟨session, hs⟩ : ∃ session, d.session.step (.typed c) = some session := ⟨_, rfl⟩
  refine ⟨session, ?_⟩
  rw [writeChar, hs, h]
  rfl

/-- A character that the buffer takes is not warned about. -/
theorem writeChar_screen (hq : d.session.Queued)
    (hlen : d.session.text.length + 2 < d.session.delivered.length + 4096)
    (hclear : d.session.Clear (.typed c)) (hs : d.writeChar c = some d') :
    d'.screen = d.screen := by
  obtain ⟨unread, htext, hh, -⟩ := hq
  rw [htext, List.length_append] at hlen
  have hquiet := @Terminal.Holds.no_warning _ _ hh c (by omega) fun hend => (hclear hend).1
  obtain ⟨session, hs'⟩ := writeChar_of_quiet hquiet
  obtain rfl := Option.some.inj (hs'.symm.trans hs)
  rfl

/-- A backspace on the text is one on what is unread. -/
theorem rubOut_text (hq : d.session.Queued) : ∃ unread,
    d.session.text = d.session.delivered ++ unread ∧ d.session.terminal.Holds unread ∧
      (rubOut d.session.text = d.session.text ↔ rubOut unread = unread) := by
  obtain ⟨unread, htext, hh, hends⟩ := hq
  have hrub : rubOut (d.session.delivered ++ unread) = d.session.delivered ++ rubOut unread := by
    refine rubOut_append fun hnil => hends ?_
    rw [hh.lines, hnil]
    rfl
  refine ⟨unread, htext, hh, ?_⟩
  rw [htext, hrub, List.append_cancel_left_eq]

theorem handleBackspace_screen (hq : d.session.Queued) (hclear : d.session.Clear .backspace)
    (hk : rubOut d.session.text ≠ d.session.text → d.screen.Keeps .backspace)
    (h : d.screen.Shows q) (hs : d.handleBackspace = some d') :
    d'.screen.Shows (if rubOut d.session.text = d.session.text then q
      else q.strike 80 0x20 .backspace) := by
  obtain ⟨unread, -, hh, hiff⟩ := rubOut_text hq
  have hprints := hh.backspaces hclear
  rw [handleBackspace, Option.bind_eq_bind] at hs
  obtain ⟨session, -, hs⟩ := Option.bind_eq_some_iff.mp hs
  by_cases hsame : rubOut d.session.text = d.session.text
  · rw [hprints, if_pos (hiff.mp hsame)] at hs
    rw [if_pos hsame]
    obtain rfl := Option.some.inj hs
    exact h
  · rw [hprints, if_neg fun heq => hsame (hiff.mpr heq), List.foldlM_cons] at hs
    rw [if_neg hsame]
    obtain ⟨d₁, h₁, hs⟩ := Option.bind_eq_some_iff.mp hs
    obtain rfl := Option.some.inj hs
    have hops : (PrintCall.char 0x08).ops = some [.backspace] := Screen.ops_char (.inr rfl)
    exact kprintf_shows (d := { d with session := session }) h hops (hk hsame) h₁

/-- What leaves the line alone keeps what the screen shows. -/
theorem Echoed.same (h : Echoed t₀ p d) (hsession : d'.session = d.session)
    (hshows : ∀ q, d.screen.Shows q → d'.screen.Shows q) : Echoed t₀ p d' := by
  obtain ⟨hq, hbase, new, q, htext, hq', hsame⟩ := h
  refine ⟨hsession ▸ hq, hsession ▸ hbase, new, q, ?_, hshows q hq', hsame⟩
  rw [hsession, htext]

/-- A character comes to the text and to the sheet. -/
theorem Echoed.typed (h : Echoed t₀ p d) (hk : d.Follows (.typed c))
    (hsession : d.session.step (.typed c) = some d'.session)
    (hshows : ∀ q, d.screen.Shows q → d'.screen.Shows (q.strike 80 0x20 (echo c).stroke)) :
    Echoed t₀ p d' := by
  obtain ⟨hq, hbase, new, q, htext, hq', hsame⟩ := h
  obtain ⟨hc, hlen, hclear, -⟩ := hk
  have hadmits : d.session.Admits (.typed c) := ⟨hc, by omega⟩
  have hq₁ := hq.step hadmits hclear hsession
  have hsession' := Option.some.inj hsession
  refine ⟨hq₁, ?_, new ++ [c], _, ?_, hshows q hq', ?_⟩
  · rw [← hsession']
    exact hbase
  · rw [← hsession', ← List.append_assoc, ← htext]
  · rw [List.map_append, Sheet.type_append]
    exact hsame.strike

/-- A backspace takes the last character from both. -/
theorem Echoed.backspace (h : Echoed t₀ p d) (hk : d.Follows .backspace)
    (hsession : d.session.step .backspace = some d'.session)
    (hshows : ∀ q, d.screen.Shows q → d'.screen.Shows
      (if rubOut d.session.text = d.session.text then q else q.strike 80 0x20 .backspace)) :
    Echoed t₀ p d' := by
  obtain ⟨hq, hbase, new, q, htext, hq', hsame⟩ := h
  obtain ⟨hclear, hkeeps⟩ := hk
  have hadmits : d.session.Admits .backspace := trivial
  have hq₁ := hq.step hadmits hclear hsession
  have hsession' := Option.some.inj hsession
  have hbase₁ : t₀.length ≤ d'.session.delivered.length := by
    rw [← hsession']
    exact hbase
  have htext₁ : d'.session.text = rubOut d.session.text := by rw [← hsession']
  have hshown := hshows q hq'
  by_cases hrub : rubOut d.session.text = d.session.text
  · -- the line is finished, or empty
    rw [if_pos hrub] at hshown
    exact ⟨hq₁, hbase₁, new, q, by rw [htext₁, hrub, htext], hshown, hsame⟩
  · rw [if_neg hrub] at hshown
    -- the character is unread, so it is one of the new ones
    obtain ⟨unread, hunread, hh, hiff⟩ := rubOut_text hq
    have hne : unread ≠ [] := by
      rintro rfl
      exact hrub (hiff.mpr rfl)
    have hnew : new ≠ [] := by
      rintro rfl
      have hlength := congrArg List.length (htext.symm.trans hunread)
      rw [List.length_append, List.length_append, List.length_nil] at hlength
      exact absurd (List.length_pos_iff.mpr hne) (by omega)
    obtain ⟨new, c, rfl⟩ := (List.eq_nil_or_concat new).resolve_left hnew
    rw [List.concat_eq_append, ← List.append_assoc] at htext
    have h10 : c ≠ 10 := by
      rintro rfl
      exact hrub (by rw [htext, rubOut_concat, if_pos rfl])
    rw [List.concat_eq_append, List.map_append, Sheet.type_append] at hsame
    have hput : (echo c).stroke = .put c := by
      rw [echo, if_neg h10]
      rfl
    simp only [List.map_cons, List.map_nil, hput, Sheet.type_cons, Sheet.type_nil] at hsame
    refine ⟨hq₁, hbase₁, new, _, ?_, hshown, ?_⟩
    · rw [htext₁, htext, rubOut_concat, if_neg h10]
    · -- the cursor is not at the beginning of its row
      have hcol := hq'.col_ne_zero ((hkeeps hrub).1 rfl)
      rw [hsame.col] at hcol
      exact (sameText_backspace_put hcol).trans hsame.strike

/-- **A key** keeps the screen and the text together. -/
theorem Pressed.echoed {k : Option Key} (hp : d.Pressed k d') (h : Echoed t₀ p d)
    (hk : ∀ k', k = some k' → d.Follows k') : Echoed t₀ p d' := by
  cases hp with
  | shown str =>
    obtain ⟨hcore, hshow, -⟩ := d.keypressBar_apart str
    exact h.same hcore.session hshow
  | quiet => exact h
  | interrupted str hs =>
    obtain ⟨hcore, hshow, -⟩ := d.keypressBar_apart str
    obtain ⟨hcore', hscreen⟩ := ctrlC_core hs
    refine h.same (hcore'.session.trans hcore.session) fun q hq => ?_
    rw [hscreen]
    exact hshow q hq
  | erased str hs =>
    obtain ⟨hcore, hshow, hkeep⟩ := d.keypressBar_apart str
    obtain ⟨hclear, hkeeps⟩ := hk _ rfl
    generalize d.keypressBar str = b at *
    rw [← hcore.session] at hclear hkeeps
    have hqueued := h.queued
    rw [← hcore.session] at hqueued
    refine h.backspace (hk _ rfl) ?_ fun q hq => ?_
    · rw [← hcore.session]
      exact (handleBackspace_edits hs).session
    · rw [← hcore.session]
      exact handleBackspace_screen hqueued hclear (fun hne => hkeep _ (hkeeps hne)) (hshow q hq) hs
  | @printed str c call d₁ _ hops h₁ hs =>
    obtain ⟨hcore, hshow, hkeep⟩ := d.keypressBar_apart str
    obtain ⟨-, hlen, hclear, hkeeps⟩ := hk _ rfl
    generalize d.keypressBar str = b at *
    have hsame : d₁.session = d.session := (kprintf_core h₁).session.trans hcore.session
    have hqueued := h.queued
    rw [← hsame] at hlen hclear hqueued
    refine h.typed (hk _ rfl) ?_ fun q hq => ?_
    · rw [← hsame]
      exact (writeChar_edits hs).session
    · rw [writeChar_screen hqueued hlen hclear hs]
      exact kprintf_shows (hshow q hq) hops (hkeep _ hkeeps) h₁
  | @written str c call d₁ _ hops h₁ hs =>
    obtain ⟨hcore, hshow, hkeep⟩ := d.keypressBar_apart str
    obtain ⟨-, hlen, hclear, hkeeps⟩ := hk _ rfl
    generalize d.keypressBar str = b at *
    have hqueued := h.queued
    rw [← hcore.session] at hlen hclear hqueued
    have hscreen := writeChar_screen hqueued hlen hclear h₁
    refine h.typed (hk _ rfl) ?_ fun q hq => ?_
    · rw [(kprintf_core hs).session, ← hcore.session]
      exact (writeChar_edits h₁).session
    · refine kprintf_shows ?_ hops ?_ hs
      · rw [hscreen]
        exact hshow q hq
      · rw [hscreen]
        exact hkeep _ hkeeps

theorem Echoed.step (h : Echoed t₀ p d) (hok : d.Echoes e) (hs : d.step junk e = some d') :
    Echoed t₀ p d' := by
  cases e with
  | scancode a =>
    rcases keyPressHandler_cases hs with ⟨rfl, -⟩ | ⟨-, hp⟩
    · exact h.same rfl fun q hq => hq
    · exact hp.echoed h hok
  | getchar =>
    obtain ⟨hq, hbase, new, q, htext, hq', hsame⟩ := h
    have hscreen := (shellTurn_frame hs).2
    rw [Desk.step, shellTurn, Option.bind_eq_bind] at hs
    obtain ⟨session, hsession, hs⟩ := Option.bind_eq_some_iff.mp hs
    have hok' : d.session.Admits .read ∧ d.session.Clear .read := ⟨trivial, trivial⟩
    have hq₁ := hq.step hok'.1 hok'.2 hsession
    have hd : d'.session = session := by
      obtain rfl := Option.some.inj hs
      split <;> rfl
    have hsession' := Option.some.inj hsession
    rw [← hd] at hq₁ hsession'
    refine ⟨hq₁, ?_, new, q, ?_, by rw [hscreen]; exact hq', hsame⟩
    · rw [← hsession']
      dsimp only
      split
      · exact hbase
      · rw [List.length_append]
        exact Nat.le_add_right_of_le hbase
    · rw [← hsession']
      exact htext

/-- **What is typed is what the screen shows.** From a state in which everything has been read, and
whatever the screen shows there, the text of the line buffer and the screen grow and shrink
together. -/
theorem echo_of_run (hq : d.session.Queued) (hread : d.session.text = d.session.delivered)
    (hshows : d.screen.Shows p) (hr : Run (Desk.step junk) Echoes d es d') :
    ∃ new q, d'.session.text = d.session.text ++ new ∧ d'.screen.Shows q ∧
      SameText 80 (p.type 80 0x20 (new.map fun c => (echo c).stroke)) q := by
  have h₀ : Echoed d.session.text p d :=
    ⟨hq, by rw [hread], [], p, (List.append_nil _).symm, hshows, SameText.refl p⟩
  exact (hr.invariant h₀ fun _ _ _ h hok hs => h.step hok hs).sheet

/-- A key that is written and then printed completes. -/
theorem written_completes {call : PrintCall} (h : d.screen.Shows q)
    (hquiet : (d.session.terminal.writeCharPrinting c).2 = []) (hops : call.ops = some [echo c])
    (hk : d.screen.Keeps (echo c)) (str : List UInt8) :
    ∃ d', ((d.keypressBar str).writeChar c >>= fun d => d.kprintf call) = some d' := by
  obtain ⟨hcore, hshow, hkeep⟩ := d.keypressBar_apart str
  obtain ⟨s, hs, -⟩ := (hshow _ h).print hops (hkeep _ hk)
  generalize d.keypressBar str = b at *
  rw [← hcore.session] at hquiet
  obtain ⟨session, hw⟩ := writeChar_of_quiet hquiet
  refine ⟨{ b with session := session, screen := s }, ?_⟩
  rw [hw, Option.bind_eq_bind, Option.bind_some, Desk.kprintf, hs]
  rfl

/-- The space bar, on the screen that the kernel begins with. -/
theorem echo_of_run_space : ∃ d', Run (Desk.step fun _ _ => 0) Echoes
    (start (fun _ _ => 0) (fun _ => 0) 0x1000 (Screen.initial fun _ => 0) (shell []))
    [.scancode 57] d' ∧ ∃ new q, d'.session.text = [] ++ new ∧ d'.screen.Shows q ∧
      SameText 80 ((Screen.initial fun _ => 0).sheet.type 80 0x20
        (new.map fun c => (echo c).stroke)) q := by
  have hshows := (Screen.initial_inv fun _ => 0).shows_sheet
  have hq : (Session.start (fun _ => 0) 0x1000).Queued :=
    ⟨[], rfl, Terminal.holds_setInputBuf _ _, fun _ => Or.inl rfl⟩
  have hkeeps : (Screen.initial fun _ => 0).Keeps (echo 0x20) := ⟨nofun, by decide⟩
  set d := start (fun _ _ => 0) (fun _ => 0) 0x1000 (Screen.initial fun _ => 0) (shell []) with hd
  have hclear : d.session.Clear (.typed 0x20) := by
    intro hend
    exact absurd hend (by decide)
  have hstep : ∃ d', d.step (fun _ _ => 0) (.scancode 57) = some d' :=
    written_completes hshows ((Terminal.holds_setInputBuf _ _).no_warning (by decide) fun _ => rfl)
      ops_lit_space hkeeps (text "LAST PRESSED: Space")
  obtain ⟨d', hstep⟩ := hstep
  have hr : Run (Desk.step fun _ _ => 0) Echoes d [.scancode 57] d' := by
    refine .cons (fun k hk => ?_) hstep (.nil _)
    obtain rfl : Key.typed 0x20 = k := Option.some.inj hk
    exact ⟨by decide, by decide, hclear, hkeeps⟩
  exact ⟨d', hr, echo_of_run hq rfl hshows hr⟩

end Desk

end Sbunix
