import Sbunix.Keyboard

/-!
# The commands of the shell

The line that is edited in the kernel, and `read_command` behind it: every line that is finished
comes out as one command, in order, without the spaces in front of it. Lines with nothing in them
do not come out.

* `Collected` — what the shell has returned and what it is collecting, as a function of what has
  been delivered;
* `commands_of_run` — so it is in every run, unless a line is too long for the block, or goes over
  the end of the page, where the reader finds a NUL;
* `drained_of_turns` — after enough turns of the shell no line is left.
-/

namespace Sbunix

open ByteMem Runs ShellInput

/-- The spaces in front of a command are skipped. -/
def unindent (l : List UInt8) : List UInt8 := l.dropWhile (· = 0x20)

/-- The commands that a list of lines comes to. -/
def commandsOf (lines : List (List UInt8)) : List (List UInt8) :=
  (lines.map unindent).filter (· ≠ [])

/-- Lines, each with its newline. -/
def joinLines (lines : List (List UInt8)) : List UInt8 := lines.flatMap (· ++ [10])

/-- What has been delivered: lines, and the beginning of the next one. -/
structure Lines (delivered : List UInt8) (lines : List (List UInt8)) (rest : List UInt8) : Prop where
  text : delivered = joinLines lines ++ rest
  line : ∀ l ∈ lines, 10 ∉ l
  open_ : 10 ∉ rest

/-- **What the shell has collected.** -/
structure Collected (d : Desk) (lines : List (List UInt8)) (rest : List UInt8) : Prop where
  delivered : Lines d.session.delivered lines rest
  commands : d.commands = commandsOf lines
  reading : Desk.command d.reading = unindent rest
  waiting : d.reading.returned = false

namespace Desk

/-- A turn of the shell stays inside its block, and does not come to the end of the page inside a
command. -/
structure Fits (d : Desk) : Prop where
  block : d.getchar ≠ 0 → d.reading.i < 1999
  page : d.session.terminal.readPosition = d.session.terminal.bufferEnd →
    0 < d.session.terminal.readline → d.reading.i = 0

/-- The keys keep the buffer a queue, and the turns of the shell fit. -/
def Undisturbed (d : Desk) : DeskEvent → Prop
  | .scancode a => ∀ k, keyOf d.modifiers a = some k → d.session.Admits k ∧ d.session.Clear k
  | .getchar => d.Fits

end Desk

/-! ### Lines -/

variable {delivered rest l : List UInt8} {lines : List (List UInt8)} {c : UInt8}

theorem unindent_concat (l : List UInt8) (c : UInt8) :
    unindent (l ++ [c]) = if unindent l = [] ∧ c = 0x20 then [] else unindent l ++ [c] := by
  have happend : unindent (l ++ [c]) = if (unindent l).isEmpty then unindent [c]
      else unindent l ++ [c] := List.dropWhile_append
  rw [happend]
  by_cases hl : unindent l = []
  · simp only [hl, List.isEmpty_nil, if_true, true_and, List.nil_append]
    by_cases hc : c = 0x20 <;> simp [hc, unindent]
  · simp [hl]

theorem commandsOf_concat (lines : List (List UInt8)) (l : List UInt8) :
    commandsOf (lines ++ [l]) =
      if unindent l = [] then commandsOf lines else commandsOf lines ++ [unindent l] := by
  rw [commandsOf, List.map_append, List.filter_append]
  by_cases hl : unindent l = []
  · simp [hl, commandsOf]
  · simp [hl, commandsOf]

/-- A character of a line … -/
theorem Lines.char (h : Lines delivered lines rest) (hc : c ≠ 10) :
    Lines (delivered ++ [c]) lines (rest ++ [c]) := by
  refine ⟨by rw [h.text, List.append_assoc], h.line, ?_⟩
  rw [List.mem_append, List.mem_singleton]
  exact not_or.mpr ⟨h.open_, fun h10 => hc h10.symm⟩

/-- … and its newline. -/
theorem Lines.newline (h : Lines delivered lines rest) :
    Lines (delivered ++ [10]) (lines ++ [rest]) [] := by
  refine ⟨?_, fun l hl => ?_, List.not_mem_nil⟩
  · rw [h.text, joinLines, joinLines, List.flatMap_append, List.flatMap_singleton,
      List.append_nil, List.append_assoc]
  · rcases List.mem_append.mp hl with hl | hl
    · exact h.line l hl
    · rw [List.mem_singleton.mp hl]
      exact h.open_

/-- With no newline in front, or one at the end, no line is open. -/
theorem Lines.rest_eq_nil (h : Lines delivered lines rest)
    (hends : delivered = [] ∨ delivered.getLast? = some 10) : rest = [] := by
  rcases List.eq_nil_or_concat rest with rfl | ⟨r, c, rfl⟩
  · rfl
  · exfalso
    rw [h.text, List.concat_eq_append, ← List.append_assoc] at hends
    rcases hends with hnil | hlast
    · simp at hnil
    · rw [List.getLast?_concat] at hlast
      refine h.open_ ?_
      rw [List.concat_eq_append, Option.some.inj hlast]
      exact List.mem_append_right _ (List.mem_singleton_self 10)

/-! ### A turn of the shell -/

namespace ShellInput.Reading

variable {s : Reading}

theorem length_command (s : Reading) : (Desk.command s).length = s.i := by
  rw [Desk.command, List.length_map, List.length_range]

/-- The store of a character appends it. -/
theorem command_put (s : Reading) (c : UInt8) :
    Desk.command { s with inputStr := s.inputStr.put s.i c, i := s.i + 1 } =
      Desk.command s ++ [c] := by
  rw [Desk.command, Desk.command, List.range_succ, List.map_append]
  congr 1
  · refine List.map_congr_left fun x hx => ?_
    exact Function.update_of_ne (Nat.ne_of_lt (List.mem_range.mp hx)) _ _
  · simp

/-- A character of a line is appended, unless it is a space in front of it. -/
theorem char_line (hs : s.returned = false) (hc : c ≠ 0) (hi : s.i ≤ 2000)
    (hread : Desk.command s = unindent rest) :
    (s.char c).returned = false ∧ Desk.command (s.char c) = unindent (rest ++ [c]) := by
  have hzero : s.i = 0 ↔ unindent rest = [] := by
    rw [← hread, ← List.length_eq_zero_iff, length_command]
  rw [unindent_concat, char, if_neg (by simp [hs]), if_neg fun h => hc h.1]
  by_cases hspace : c = 0x20 ∧ s.i = 0
  · rw [if_pos hspace, if_pos ⟨hzero.mp hspace.2, hspace.1⟩, hread, hzero.mp hspace.2]
    exact ⟨hs, rfl⟩
  · rw [if_neg hspace, if_neg (by omega), if_pos hc, if_neg fun h => hspace ⟨h.2, hzero.mpr h.1⟩,
      command_put, hread]
    exact ⟨hs, rfl⟩

/-- A NUL ends the command, if there is one. -/
theorem char_nul (hs : s.returned = false) :
    (s.char 0).returned = decide (s.i ≠ 0) ∧ Desk.command (s.char 0) = Desk.command s ∧
      (s.i = 0 → s.char 0 = s) := by
  have hspace : ¬ ((0 : UInt8) = 0x20 ∧ s.i = 0) := fun h => absurd h.1 (by decide)
  rw [char, if_neg (by simp [hs])]
  by_cases hzero : s.i = 0
  · rw [if_neg (by omega), if_neg hspace, if_neg (by omega), if_neg fun h => h rfl]
    exact ⟨by simp [hs, hzero], rfl, fun _ => rfl⟩
  · rw [if_pos ⟨rfl, Nat.pos_of_ne_zero hzero⟩]
    refine ⟨by simp [finish, hzero], ?_, fun h => absurd h hzero⟩
    refine List.map_congr_left fun x hx => ?_
    exact Function.update_of_ne (Nat.ne_of_lt (List.mem_range.mp hx)) _ _

end ShellInput.Reading

namespace Desk

variable {d d' : Desk} {junk : Nat → Nat → UInt8} {es : List DeskEvent} {e : DeskEvent}

/-- The state of `read_command` behind a turn. -/
theorem shellTurn_eq (junk : Nat → Nat → UInt8) (d : Desk) : ∃ session,
    d.session.step .read = some session ∧ d.shellTurn junk = some
      (if (d.reading.char d.getchar).returned = true then
        { d with
          session := session
          reading := .start (junk d.commands.length)
          commands := d.commands ++ [command (d.reading.char d.getchar)] }
      else { d with session := session, reading := d.reading.char d.getchar }) :=
  ⟨_, rfl, rfl⟩

theorem command_start (junk : Nat → UInt8) : command (.start junk) = [] := rfl

/-- Where `readChar` delivers nothing, no command has begun. -/
theorem idle_of_zero (h : Collected d lines rest) (hq : d.session.Queued) (hf : d.Fits)
    (h0 : d.session.terminal.readChar.1 = 0) : d.reading.i = 0 := by
  obtain ⟨unread, -, hh, hends⟩ := hq
  have hline : (0 : Int) ≤ d.session.terminal.readline := by
    rw [hh.lines]
    exact Int.natCast_nonneg _
  rcases hline.eq_or_lt with hl | hl
  · -- no line is left, so none is open
    have hrest := h.delivered.rest_eq_nil (hends hl.symm)
    rw [← Reading.length_command, h.reading, hrest]
    rfl
  · by_cases hr : d.session.terminal.readPosition = d.session.terminal.bufferEnd
    · exact hf.page hr hl
    · obtain ⟨c, left, rfl, hc, -⟩ := hh.readChar_next hl hr
      exact absurd (hc.symm.trans h0) (hh.chars c List.mem_cons_self)

/-- **A turn of the shell** collects what it delivers. -/
theorem shellTurn_collected (h : Collected d lines rest) (hq : d.session.Queued) (hf : d.Fits)
    (hs : d.shellTurn junk = some d') : ∃ lines' rest', Collected d' lines' rest' := by
  obtain ⟨session, hsession, hturn⟩ := shellTurn_eq junk d
  obtain rfl := Option.some.inj (hturn.symm.trans hs)
  have hdelivered := congrArg Session.delivered (Option.some.inj hsession)
  dsimp only at hdelivered
  by_cases h0 : d.session.terminal.readChar.1 = 0
  · -- nothing is delivered
    have hidle := idle_of_zero h hq hf h0
    obtain ⟨hlines, hcommands, hread, hwait⟩ := h
    have hget : d.getchar = 0 := by
      rw [getchar, h0]
      rfl
    rw [if_pos h0] at hdelivered
    rw [hget, (Reading.char_nul hwait).2.2 hidle, if_neg (by simp [hwait])]
    exact ⟨lines, rest, hdelivered ▸ hlines, hcommands, hread, hwait⟩
  · rw [if_neg h0] at hdelivered
    obtain ⟨hlines, hcommands, hread, hwait⟩ := h
    by_cases h10 : d.session.terminal.readChar.1 = 10
    · -- the line is finished
      have hget : d.getchar = 0 := if_pos h10
      have hnew : Lines session.delivered (lines ++ [rest]) [] := by
        rw [← hdelivered, h10]
        exact hlines.newline
      obtain ⟨hreturned, hcommand, hstays⟩ := Reading.char_nul hwait
      rw [hget]
      by_cases hzero : d.reading.i = 0
      · have hempty : unindent rest = [] := by
          rw [← hread, ← List.length_eq_zero_iff, Reading.length_command, hzero]
        rw [hstays hzero, if_neg (by simp [hwait])]
        refine ⟨_, _, hnew, ?_, hread.trans hempty, hwait⟩
        rw [commandsOf_concat, if_pos hempty]
        exact hcommands
      · have hfull : unindent rest ≠ [] := by
          rw [← hread, ← List.length_pos_iff, Reading.length_command]
          exact Nat.pos_of_ne_zero hzero
        rw [if_pos (by simp [hreturned, hzero])]
        refine ⟨_, _, hnew, ?_, rfl, rfl⟩
        rw [commandsOf_concat, if_neg hfull, hcommand, hread]
        exact congrArg (· ++ [unindent rest]) hcommands
    · -- the line goes on
      have hget : d.getchar = d.session.terminal.readChar.1 := if_neg h10
      have hlimit := hf.block (by rw [hget]; exact h0)
      rw [hget]
      obtain ⟨hreturned, hcommand⟩ := Reading.char_line hwait h0 (by omega) hread
      rw [if_neg (by simp [hreturned])]
      exact ⟨_, _, hdelivered ▸ hlines.char h10, hcommands, hcommand, hreturned⟩

/-- **The invariant**: the buffer is a queue, and the shell has collected what it has delivered. -/
def Served (d : Desk) : Prop := d.session.Queued ∧ ∃ lines rest, Collected d lines rest

theorem Served.step (h : d.Served) (hok : d.Undisturbed e) (hs : d.step junk e = some d') :
    d'.Served := by
  obtain ⟨hq, lines, rest, hcollected⟩ := h
  cases e with
  | scancode a =>
    -- a key does not reach what has been delivered
    have hother : d'.session.Queued ∧ d'.session.delivered = d.session.delivered ∧
        d'.reading = d.reading ∧ d'.commands = d.commands := by
      rcases keyPressHandler_cases hs with ⟨rfl, -⟩ | ⟨-, hp⟩
      · exact ⟨hq, rfl, rfl, rfl⟩
      · have hcore := hp.core
        cases hkey : keyOf d.modifiers a with
        | none =>
          rw [hkey] at hcore
          obtain ⟨hsession, -, hreading, hcommands⟩ := hcore
          exact ⟨hsession ▸ hq, by rw [hsession], hreading, hcommands⟩
        | some k =>
          rw [hkey] at hcore
          obtain ⟨hsession, -, hreading, hcommands⟩ := hcore
          obtain ⟨hadmits, hclear⟩ := hok k hkey
          refine ⟨hq.step hadmits hclear hsession, ?_, hreading, hcommands⟩
          cases k with
          | typed c => rw [← Option.some.inj hsession]
          | backspace => rw [← Option.some.inj hsession]
          | read =>
            rw [hkey] at hp
            cases hp
    obtain ⟨hq', hdelivered, hreading, hcommands⟩ := hother
    obtain ⟨hlines, hc, hr, hw⟩ := hcollected
    exact ⟨hq', lines, rest, hdelivered ▸ hlines, hcommands.trans hc, by rw [hreading, hr],
      by rw [hreading, hw]⟩
  | getchar =>
    obtain ⟨session, hsession, hturn⟩ := shellTurn_eq junk d
    have hok' : d.session.Admits .read ∧ d.session.Clear .read := ⟨trivial, trivial⟩
    have hq' := hq.step hok'.1 hok'.2 hsession
    obtain ⟨lines', rest', hcollected'⟩ := shellTurn_collected hcollected hq hok hs
    refine ⟨?_, lines', rest', hcollected'⟩
    obtain rfl := Option.some.inj (hturn.symm.trans hs)
    split <;> exact hq'

theorem start_served (junk : Nat → Nat → UInt8) (mem : Mem) (page : Nat) (screen : Screen)
    (k : Kernel) : (start junk mem page screen k).Served := by
  refine ⟨⟨[], rfl, Terminal.holds_setInputBuf mem page, fun _ => Or.inl rfl⟩, [], [], ?_⟩
  exact ⟨⟨rfl, fun _ hl => absurd hl List.not_mem_nil, List.not_mem_nil⟩, rfl, rfl, rfl⟩

end Desk

/-! ### Turns without keys -/

/-- What is left to read, twice, and the turn that is lost at the end of the page. -/
def Session.pending (s : Session) : Nat :=
  2 * (s.text.length - s.delivered.length) +
    if s.terminal.readPosition = s.terminal.bufferEnd then 1 else 0

/-- A read makes progress while there is a line. -/
theorem Session.Queued.read {s s' : Session} (hq : s.Queued) (hs : s.step .read = some s') :
    s'.text = s.text ∧ (s.terminal.readline = 0 → s'.terminal.readline = 0) ∧
      (0 < s.terminal.readline → s'.pending < s.pending) := by
  obtain ⟨unread, htext, hh, -⟩ := hq
  obtain rfl := Option.some.inj hs
  refine ⟨rfl, fun hl => ?_, fun hl => ?_⟩
  · rw [Terminal.readChar_idle hl]
    exact hl
  · unfold pending
    by_cases hr : s.terminal.readPosition = s.terminal.bufferEnd
    · obtain ⟨hz, -, -, hne⟩ := hh.readChar_turn hl hr
      simp only [if_pos hz, if_pos hr, if_neg hne]
      omega
    · obtain ⟨c, left, hu, hc, -⟩ := hh.readChar_next hl hr
      have hc0 : s.terminal.readChar.1 ≠ 0 := by
        rw [hc]
        exact hh.chars c (hu ▸ List.mem_cons_self)
      simp only [if_neg hc0, if_neg hr]
      rw [htext, hu]
      simp only [List.length_append, List.length_cons, List.length_nil]
      split <;> omega

namespace Desk

variable {d d' : Desk} {junk : Nat → Nat → UInt8} {es : List DeskEvent} {n : Nat}

/-- **Turns of the shell alone** leave no line. -/
theorem drained_of_turns (h : d.Served) (hn : d.session.pending ≤ n)
    (hr : Run (Desk.step junk) Undisturbed d (List.replicate n .getchar) d') :
    d'.Served ∧ d'.session.text = d.session.text ∧ d'.session.terminal.readline = 0 := by
  -- without a line at the beginning, or with enough turns for what is left
  have hmain : ∀ n (d : Desk), d.Served →
      (d.session.terminal.readline = 0 ∨ d.session.pending ≤ n) →
      Run (Desk.step junk) Undisturbed d (List.replicate n .getchar) d' →
      d'.Served ∧ d'.session.text = d.session.text ∧ d'.session.terminal.readline = 0 := by
    intro n
    induction n with
    | zero =>
      intro d h hn hr
      cases hr
      refine ⟨h, rfl, hn.elim id fun hzero => ?_⟩
      obtain ⟨⟨unread, htext, hh, -⟩, -⟩ := h
      have hpending := Nat.le_zero.mp hzero
      rw [Session.pending, htext, List.length_append] at hpending
      have hnil : unread = [] := List.length_eq_zero_iff.mp (by omega)
      rw [hh.lines, hnil]
      rfl
    | succ n ih =>
      intro d h hn hr
      rw [List.replicate_succ] at hr
      cases hr with
      | @cons _ d₁ _ _ _ hok hs hr =>
        have h₁ := h.step hok hs
        obtain ⟨session, hsession, hturn⟩ := shellTurn_eq junk d
        have hd₁ : d₁.session = session := by
          obtain rfl := Option.some.inj (hturn.symm.trans hs)
          split <;> rfl
        obtain ⟨htext, hidle, hprogress⟩ := h.1.read hsession
        rw [← hd₁] at htext hidle hprogress
        have hn₁ : d₁.session.terminal.readline = 0 ∨ d₁.session.pending ≤ n := by
          have hline : (0 : Int) ≤ d.session.terminal.readline := by
            obtain ⟨⟨unread, -, hh, -⟩, -⟩ := h
            rw [hh.lines]
            exact Int.natCast_nonneg _
          rcases hline.eq_or_lt with hl | hl
          · exact Or.inl (hidle hl.symm)
          · have hlt := hprogress hl
            rcases hn with hl' | hn
            · omega
            · exact Or.inr (by omega)
        obtain ⟨hserved, htext', hline⟩ := ih d₁ h₁ hn₁ hr
        exact ⟨hserved, htext'.trans htext, hline⟩
  exact hmain n d h (Or.inr hn) hr

/-- The commands that have come out, when no line is left: those of all lines of the text. -/
theorem Served.all_out (h : d.Served) (hl : d.session.terminal.readline = 0) :
    ∃ lines unread, Lines d.session.text lines unread ∧ d.commands = commandsOf lines ∧
      command d.reading = [] := by
  obtain ⟨⟨unread, htext, hh, hends⟩, lines, rest, hlines, hcommands, hread, -⟩ := h
  have hrest := hlines.rest_eq_nil (hends hl)
  refine ⟨lines, unread, ⟨?_, hlines.line, ?_⟩, hcommands, by rw [hread, hrest]; rfl⟩
  · rw [htext, hlines.text, hrest, List.append_nil]
  · have hcount := hh.lines.symm.trans hl
    exact List.count_eq_zero.mp (by omega)

/-- **What is typed comes out as commands.** In every run the commands are those of the lines that
have been delivered, and the shell is collecting the beginning of the next one; and when it has
the time, they are those of all lines that have been finished. -/
theorem commands_of_run (mem : Mem) (page : Nat) (screen : Screen) (k : Kernel)
    (hr : Run (Desk.step junk) Undisturbed (start junk mem page screen k) es d) :
    (∃ lines rest unread, d.session.text = joinLines lines ++ rest ++ unread ∧
      (∀ l ∈ lines, 10 ∉ l) ∧ 10 ∉ rest ∧ d.commands = commandsOf lines ∧
        command d.reading = unindent rest) ∧
      ∀ n d', 2 * (d.session.text.length - d.session.delivered.length) < n →
        Run (Desk.step junk) Undisturbed d (List.replicate n .getchar) d' →
        ∃ lines unread, Lines d.session.text lines unread ∧ d'.commands = commandsOf lines ∧
          command d'.reading = [] := by
  have h : d.Served :=
    hr.invariant (start_served junk mem page screen k) fun _ _ _ h hok hs => h.step hok hs
  constructor
  · obtain ⟨⟨unread, htext, -⟩, lines, rest, hlines, hcommands, hread, -⟩ := h
    exact ⟨lines, rest, unread, by rw [htext, hlines.text], hlines.line, hlines.open_, hcommands,
      hread⟩
  · intro n d' hn hturns
    have hpending : d.session.pending ≤ n := by
      rw [Session.pending]
      split <;> omega
    obtain ⟨hserved, htext, hl⟩ := drained_of_turns h hpending hturns
    rw [← htext]
    exact hserved.all_out hl

/-- An empty line. -/
theorem commands_of_run_enter : ∃ d, Run (Desk.step fun _ _ => 0) Undisturbed
    (start (fun _ _ => 0) (fun _ => 0) 0x1000 (Screen.initial fun _ => 0) (shell []))
    [.scancode 28, .getchar] d ∧
    (∃ lines rest unread, d.session.text = joinLines lines ++ rest ++ unread ∧
      (∀ l ∈ lines, 10 ∉ l) ∧ 10 ∉ rest ∧ d.commands = commandsOf lines ∧
        command d.reading = unindent rest) ∧
      ∀ n d', 2 * (d.session.text.length - d.session.delivered.length) < n →
        Run (Desk.step fun _ _ => 0) Undisturbed d (List.replicate n .getchar) d' →
        ∃ lines unread, Lines d.session.text lines unread ∧ d'.commands = commandsOf lines ∧
          command d'.reading = [] := by
  set d := start (fun _ _ => 0) (fun _ => 0) 0x1000 (Screen.initial fun _ => 0) (shell []) with hd
  have hkeeps : (Screen.initial fun _ => 0).Keeps (echo 10) := ⟨nofun, by decide⟩
  have hops : (PrintCall.lit (text "\n")).ops = some [echo 10] := ops_lit_newline
  have hstep : ∃ d₁, d.step (fun _ _ => 0) (.scancode 28) = some d₁ :=
    written_completes (Screen.initial_inv fun _ => 0).shows_sheet
      ((Terminal.holds_setInputBuf _ _).no_warning (by decide) fun _ => rfl)
      hops hkeeps (text "LAST PRESSED: Enter")
  obtain ⟨d₁, hstep⟩ := hstep
  -- the shell has not begun a command
  have hzero : d₁.reading.i = 0 := by
    rcases keyPressHandler_cases hstep with ⟨-, hkey⟩ | ⟨-, hp⟩
    · cases hkey
    · exact congrArg Reading.i (Edits.reading hp.core)
  obtain ⟨d₂, hturn⟩ : ∃ d₂, d₁.step (fun _ _ => 0) .getchar = some d₂ := ⟨_, rfl⟩
  have hr : Run (Desk.step fun _ _ => 0) Undisturbed d [.scancode 28, .getchar] d₂ := by
    refine .cons (fun k hk => ?_) hstep (.cons ⟨fun _ => ?_, fun _ _ => hzero⟩ hturn (.nil _))
    · obtain rfl : Key.typed 10 = k := Option.some.inj hk
      exact ⟨⟨by decide, by decide⟩, fun hend => absurd hend (by decide)⟩
    · rw [hzero]
      decide
  exact ⟨d₂, hr, commands_of_run (fun _ => 0) 0x1000 _ _ hr⟩

end Desk

end Sbunix
