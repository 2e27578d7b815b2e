import Mathlib.Data.List.TakeWhile
import Mathlib.Data.Nat.Find
import Mathlib.Tactic.Common

/-!
# The input buffers of the shell

`read_command` collects what `getchar` delivers in a block of 2000 bytes, and `read_line` collects
a line of a script in a block of 64 bytes. Both are loops over a stream (`feed`): one turn for each
character, and a state that no longer changes when the function has returned.

* `Reading.after_line` — while no NUL comes, the characters lie in the block one behind the other;
* `commandInside_iff` — `read_command` stays inside exactly when a NUL comes among the 2000
  characters from the first one that is typed;
* `lineInside_iff` — `read_line` stays inside exactly when one of the first 64 reads ends the line;
* `input_inside_iff` — both, for every stream and every script.
-/

namespace Sbunix

namespace ShellInput

/-! ### Loops over a stream -/

section Feed

variable {σ ι : Type} (step : σ → ι → σ) (s : σ) (input : Nat → ι)

/-- The state of a loop after its first `n` turns, which take one element of the stream each. -/
def feed : Nat → σ
  | 0 => s
  | n + 1 => step (feed n) (input n)

variable {step s input}

/-- A state that no element changes stays. -/
theorem feed_stays {n : Nat} (h : ∀ x, step (feed step s input n) x = feed step s input n) :
    ∀ m, feed step s input (n + m) = feed step s input n := by
  intro m
  induction m with
  | zero => rfl
  | succ m ih =>
    show step (feed step s input (n + m)) (input (n + m)) = _
    rw [ih, h]

end Feed

/-- A block from `malloc`: its bytes, and the offsets that have been stored to. Behind the block
the bytes go on with what is there. -/
structure Buffer where
  byte : Nat → UInt8
  stored : List Nat

def Buffer.put (d : Buffer) (i : Nat) (c : UInt8) : Buffer :=
  ⟨Function.update d.byte i c, i :: d.stored⟩

@[simp] theorem Buffer.stored_put (d : Buffer) (i : Nat) (c : UInt8) :
    (d.put i c).stored = i :: d.stored := rfl

@[simp] theorem Buffer.byte_put_self (d : Buffer) (i : Nat) (c : UInt8) :
    (d.put i c).byte i = c := by simp [Buffer.put]

/-! ### `read_command` -/

/-- The locals of `read_command`, and whether it has returned. -/
structure Reading where
  inputStr : Buffer
  i : Nat
  returned : Bool

namespace Reading

/-- The state in front of the loop; the block is not cleared. -/
def start (junk : Nat → UInt8) : Reading := ⟨⟨junk, []⟩, 0, false⟩

/-- What follows the loop. -/
def finish (s : Reading) : Reading :=
  { s with inputStr := s.inputStr.put s.i 0, returned := true }

/-- One turn of the loop, at the character `c`. -/
def char (s : Reading) (c : UInt8) : Reading :=
  if s.returned = true then s
  -- the limit is looked at behind the NUL and in front of the store
  else if c = 0 ∧ 0 < s.i then s.finish
  else if c = 0x20 ∧ s.i = 0 then s
  else if 2000 < s.i then s.finish
  else if c ≠ 0 then { s with inputStr := s.inputStr.put s.i c, i := s.i + 1 }
  else s

/-- `read_command` after the first `n` characters that `getchar` delivers. -/
def after (junk stream : Nat → UInt8) (n : Nat) : Reading := feed char (start junk) stream n

end Reading

/-- A character that starts a command. -/
def Typed (c : UInt8) : Prop := c ≠ 0 ∧ c ≠ 0x20

instance (c : UInt8) : Decidable (Typed c) := inferInstanceAs (Decidable (_ ∧ _))

/-- Character `k` of the stream is the first of the command. -/
def FirstTyped (stream : Nat → UInt8) (k : Nat) : Prop :=
  Typed (stream k) ∧ ∀ j < k, ¬ Typed (stream j)

/-- All stores lie in the 2000 bytes, and a command that is typed is returned with its NUL in
them. While nothing is typed, `read_command` waits. -/
structure CommandInside (junk stream : Nat → UInt8) : Prop where
  stores : ∀ n, ∀ x ∈ (Reading.after junk stream n).inputStr.stored, x < 2000
  returns : (∃ k, Typed (stream k)) → ∃ n, (Reading.after junk stream n).returned = true ∧
    ∃ x < 2000, (Reading.after junk stream n).inputStr.byte x = 0

/-- A NUL comes among the 2000 characters from the first one that is typed. -/
def CommandFits (stream : Nat → UInt8) : Prop :=
  ∀ k, FirstTyped stream k → ∃ j < 2000, stream (k + j) = 0

namespace Reading

variable {junk stream : Nat → UInt8} {k : Nat}

theorem after_quiet : ∀ n, (∀ j < n, ¬ Typed (stream j)) → after junk stream n = start junk := by
  intro n
  induction n with
  | zero =>
    intro _
    rfl
  | succ n ih =>
    intro h
    show char (after junk stream n) (stream n) = _
    rw [ih fun j hj => h j (Nat.lt_succ_of_lt hj)]
    -- a NUL is passed over and a space is skipped
    by_cases h0 : stream n = 0
    · simp [char, start, h0]
    · have hspace : stream n = 0x20 := not_not.mp fun hne => h n (Nat.lt_succ_self n) ⟨h0, hne⟩
      simp [char, start, hspace]

/-- While no NUL comes, the characters from the first one on are stored one behind the other. -/
theorem after_line (hk : FirstTyped stream k) : ∀ j ≤ 2001, (∀ t < j, stream (k + t) ≠ 0) →
    let s := after junk stream (k + j)
    s.i = j ∧ s.returned = false ∧ ∀ x, x ∈ s.inputStr.stored ↔ x < j := by
  intro j
  induction j with
  | zero =>
    intro _ _
    rw [Nat.add_zero, after_quiet k hk.2]
    exact ⟨rfl, rfl, fun x => by simp [start]⟩
  | succ j ih =>
    intro hj hne
    obtain ⟨hi, hr, hs⟩ := ih (by omega) fun t ht => hne t (Nat.lt_succ_of_lt ht)
    have hc : stream (k + j) ≠ 0 := hne j (Nat.lt_succ_self j)
    -- spaces are skipped in front of the command only
    have hskip : ¬ (stream (k + j) = 0x20 ∧ j = 0) := by
      rintro ⟨hspace, rfl⟩
      exact hk.1.2 hspace
    have hchar : after junk stream (k + (j + 1)) =
        { after junk stream (k + j) with
          inputStr := (after junk stream (k + j)).inputStr.put j (stream (k + j))
          i := j + 1 } := by
      show char (after junk stream (k + j)) (stream (k + j)) = _
      rw [char, if_neg (by simp [hr]), if_neg (by simp [hc]), hi, if_neg hskip,
        if_neg (by omega), if_pos hc]
    rw [hchar]
    refine ⟨rfl, hr, fun x => ?_⟩
    rw [Buffer.stored_put, List.mem_cons, hs]
    omega

/-- The NUL at `k + j` ends a command of `j` characters. -/
theorem after_nul (hk : FirstTyped stream k) {j : Nat} (hj : j ≤ 2001) (hpos : 0 < j)
    (hne : ∀ t < j, stream (k + t) ≠ 0) (hnul : stream (k + j) = 0) :
    after junk stream (k + (j + 1)) = (after junk stream (k + j)).finish := by
  obtain ⟨hi, hr, -⟩ := @after_line junk stream k hk j hj hne
  show char (after junk stream (k + j)) (stream (k + j)) = _
  rw [char, if_neg (by simp [hr]), if_pos ⟨hnul, by omega⟩]

theorem after_stays {n : Nat} (h : (after junk stream n).returned = true) (m : Nat) :
    after junk stream (n + m) = after junk stream n :=
  @feed_stays _ _ char _ _ _ (fun _ => if_pos h) m

end Reading

theorem exists_firstTyped {stream : Nat → UInt8} (h : ∃ k, Typed (stream k)) :
    ∃ k, FirstTyped stream k :=
  ⟨Nat.find h, Nat.find_spec h, fun _ hj => Nat.find_min h hj⟩

/-- When no NUL comes among the first 2000 characters, the byte behind the block is stored: it
takes the next character, or the NUL. -/
theorem stored_behind {junk stream : Nat → UInt8} {k : Nat} (hk : FirstTyped stream k)
    (hne : ∀ j < 2000, stream (k + j) ≠ 0) :
    2000 ∈ (Reading.after junk stream (k + (2000 + 1))).inputStr.stored := by
  by_cases hnul : stream (k + 2000) = 0
  · -- the NUL that ends the command
    obtain ⟨hi, -, -⟩ := @Reading.after_line junk stream k hk 2000 (by omega) hne
    rw [Reading.after_nul hk (by omega) (by omega) hne hnul, Reading.finish, hi]
    exact List.mem_cons_self
  · have hne' : ∀ j < 2000 + 1, stream (k + j) ≠ 0 := by
      intro j hj
      rcases Nat.lt_or_eq_of_le (Nat.le_of_lt_succ hj) with hlt | rfl
      · exact hne j hlt
      · exact hnul
    exact ((Reading.after_line hk (2000 + 1) (by omega) hne').2.2 2000).mpr (by omega)

/-- A command that fits ends at its first NUL. -/
theorem CommandFits.exists_nul {stream : Nat → UInt8} (h : CommandFits stream) {k : Nat}
    (hk : FirstTyped stream k) :
    ∃ j, 0 < j ∧ j < 2000 ∧ (∀ t < j, stream (k + t) ≠ 0) ∧ stream (k + j) = 0 := by
  have hex := h k hk
  obtain ⟨hlt, hnul⟩ := Nat.find_spec hex
  refine ⟨Nat.find hex, ?_, hlt, ?_, hnul⟩
  · apply Nat.pos_of_ne_zero
    intro hzero
    rw [hzero] at hnul
    exact hk.1.1 hnul
  · intro t ht hzero
    exact Nat.find_min hex ht ⟨ht.trans hlt, hzero⟩

/-- All stores of a command that ends at character `j` lie at `j` or in front of it. -/
theorem stored_le {junk stream : Nat → UInt8} {k j : Nat} (hk : FirstTyped stream k)
    (hpos : 0 < j) (hj : j < 2000) (hne : ∀ t < j, stream (k + t) ≠ 0) (hnul : stream (k + j) = 0)
    (n : Nat) : ∀ x ∈ (Reading.after junk stream (k + n)).inputStr.stored, x ≤ j := by
  intro x hx
  rcases Nat.lt_or_ge j n with hlt | hge
  · -- the command has been returned
    obtain ⟨d, rfl⟩ := Nat.exists_eq_add_of_le hlt
    have hfinish := @Reading.after_nul junk stream k hk _ (by omega) hpos hne hnul
    obtain ⟨hi, -, hs⟩ := @Reading.after_line junk stream k hk j (by omega) hne
    rw [← Nat.add_assoc, Reading.after_stays (by rw [hfinish]; rfl), hfinish, Reading.finish,
      Buffer.stored_put, List.mem_cons, hi, hs] at hx
    omega
  · -- the command still goes on
    have hline := @Reading.after_line junk stream k hk n (by omega) fun t ht =>
      hne t (ht.trans_le hge)
    exact (((hline.2.2 x).mp hx).trans_le hge).le

/-- `read_command` stays inside its block, and leaves a string there, exactly when the command
fits. -/
theorem commandInside_iff (junk stream : Nat → UInt8) :
    CommandInside junk stream ↔ CommandFits stream := by
  constructor
  · intro h k hk
    by_contra hnone
    have hne : ∀ j < 2000, stream (k + j) ≠ 0 := fun j hj hnul => hnone ⟨j, hj, hnul⟩
    exact absurd (h.stores _ 2000 (stored_behind hk hne)) (Nat.lt_irrefl _)
  · intro h
    constructor
    · intro n x hx
      by_cases hq : ∀ j < n, ¬ Typed (stream j)
      · rw [Reading.after_quiet n hq] at hx
        exact absurd hx List.not_mem_nil
      · -- something has been typed, and the first of it starts the command
        push Not at hq
        obtain ⟨k₀, hk₀, htyped⟩ := hq
        obtain ⟨k, hk⟩ := exists_firstTyped ⟨k₀, htyped⟩
        obtain ⟨j, hpos, hj, hne, hnul⟩ := h.exists_nul hk
        have hkn : k ≤ n := by
          by_contra hge
          exact hk.2 k₀ (by omega) htyped
        obtain ⟨m, rfl⟩ := Nat.exists_eq_add_of_le hkn
        exact (stored_le hk hpos hj hne hnul m x hx).trans_lt hj
    · intro htyped
      obtain ⟨k, hk⟩ := exists_firstTyped htyped
      obtain ⟨j, hpos, hj, hne, hnul⟩ := h.exists_nul hk
      obtain ⟨hi, -, -⟩ := @Reading.after_line junk stream k hk j (by omega) hne
      have hfinish := @Reading.after_nul junk stream k hk _ (by omega) hpos hne hnul
      refine ⟨k + (j + 1), by rw [hfinish]; rfl, j, hj, ?_⟩
      rw [hfinish, Reading.finish, hi, Buffer.byte_put_self]

/-! ### `read_line` -/

/-- What `read(fd, c, 1)` does: it fails, it is at the end of the file, or it delivers a
character. -/
inductive ReadResult
  | error
  | ended
  | char (c : UInt8)
  deriving DecidableEq

/-- How `read_line` ends. -/
inductive LineEnd
  | line
  | null
  | exited

/-- The locals of `read_line`, and how it has ended. `char_buffer` grows, the block does not. -/
structure Line where
  d : Buffer
  char_count : Nat
  char_buffer : Nat
  ended : Option LineEnd

/-- `LINE_BUFFER`. -/
def lineBuffer : Nat := 64

namespace Line

def start (junk : Nat → UInt8) : Line := ⟨⟨junk, []⟩, 0, lineBuffer, none⟩

/-- `d[char_count] = '\0'; return d;`. -/
def finish (s : Line) : Line := { s with d := s.d.put s.char_count 0, ended := some .line }

/-- The check of the limit. The call that would make the block larger is commented out. -/
def grow (s : Line) : Line :=
  if s.char_buffer ≤ s.char_count then { s with char_buffer := s.char_buffer + lineBuffer } else s

/-- One turn of the loop. -/
def turn (s : Line) (r : ReadResult) : Line :=
  if s.ended.isSome then s
  else
    let s := s.grow
    match r with
    | .error => { s with ended := some .exited }
    | .char c =>
      if c ≠ 0x0A then { s with d := s.d.put s.char_count c, char_count := s.char_count + 1 }
      else s.finish
    | .ended => if 0 < s.char_count then s.finish else { s with ended := some .null }

/-- `read_line` after its first `n` reads. -/
def after (junk : Nat → UInt8) (reads : Nat → ReadResult) (n : Nat) : Line :=
  feed turn (start junk) reads n

end Line

/-- All stores of `read_line` lie in its block. -/
def LineInside (junk : Nat → UInt8) (reads : Nat → ReadResult) : Prop :=
  ∀ n, ∀ x ∈ (Line.after junk reads n).d.stored, x < lineBuffer

/-- A read that the line goes on after. -/
def ReadResult.Goes (r : ReadResult) : Prop := ∃ c, r = .char c ∧ c ≠ 0x0A

/-- What the reads of a script deliver from here on. -/
def scriptReads (content : List UInt8) (k : Nat) : ReadResult :=
  match content[k]? with
  | some c => .char c
  | none => .ended

namespace Line

variable {junk : Nat → UInt8} {reads : Nat → ReadResult}

@[simp] theorem grow_d (s : Line) : s.grow.d = s.d := by
  unfold grow
  split <;> rfl

@[simp] theorem grow_char_count (s : Line) : s.grow.char_count = s.char_count := by
  unfold grow
  split <;> rfl

@[simp] theorem grow_ended (s : Line) : s.grow.ended = s.ended := by
  unfold grow
  split <;> rfl

theorem after_succ (n : Nat) :
    after junk reads (n + 1) = turn (after junk reads n) (reads n) := rfl

/-- A turn that the line goes on after. -/
theorem turn_goes {s : Line} (hs : s.ended = none) {c : UInt8} (hc : c ≠ 0x0A) :
    (s.turn (.char c)).d = s.d.put s.char_count c ∧
      (s.turn (.char c)).char_count = s.char_count + 1 ∧ (s.turn (.char c)).ended = none := by
  simp [turn, hs, hc]

/-- A turn that ends the line stores a NUL behind it, or nothing. -/
theorem turn_ends {s : Line} (hs : s.ended = none) {r : ReadResult} (hr : ¬ r.Goes) :
    (s.turn r).ended.isSome = true ∧
      (s.turn r).d = if r = .error ∨ r = .ended ∧ s.char_count = 0 then s.d
        else s.d.put s.char_count 0 := by
  cases r with
  | error => simp [turn, hs]
  | ended =>
    by_cases hzero : s.char_count = 0 <;>
      simp [turn, hs, hzero, finish, Nat.pos_iff_ne_zero]
  | char c =>
    have hc : c = 0x0A := not_not.mp fun hne => hr ⟨c, rfl, hne⟩
    simp [turn, hs, hc, finish]

/-- While the line goes on, its characters are stored one behind the other. -/
theorem after_goes : ∀ n, (∀ k < n, (reads k).Goes) →
    let s := after junk reads n
    s.char_count = n ∧ s.ended = none ∧ ∀ x, x ∈ s.d.stored ↔ x < n := by
  intro n
  induction n with
  | zero =>
    intro _
    exact ⟨rfl, rfl, fun x => by simp [after, feed, start]⟩
  | succ n ih =>
    intro h
    obtain ⟨hcount, hended, hs⟩ := ih fun k hk => h k (Nat.lt_succ_of_lt hk)
    obtain ⟨c, hread, hc⟩ := h n (Nat.lt_succ_self n)
    obtain ⟨hd, hcount', hended'⟩ := turn_goes hended hc
    rw [after_succ, hread]
    refine ⟨by rw [hcount', hcount], hended', fun x => ?_⟩
    rw [hd, Buffer.stored_put, List.mem_cons, hcount, hs]
    omega

/-- The read that ends a line of `n` characters is the last that counts. -/
theorem after_ends {n : Nat} (h : ∀ k < n, (reads k).Goes) (hn : ¬ (reads n).Goes) (m : Nat) :
    (after junk reads (n + 1 + m)).d = (turn (after junk reads n) (reads n)).d := by
  obtain ⟨-, hended, -⟩ := @after_goes junk reads n h
  obtain ⟨hsome, -⟩ := turn_ends hended hn
  have hreturned : (after junk reads (n + 1)).ended.isSome = true := hsome
  have hstays : after junk reads (n + 1 + m) = after junk reads (n + 1) :=
    @feed_stays _ _ turn _ _ _ (fun _ => if_pos hreturned) m
  rw [hstays, after_succ]

/-- What a line of `k` characters stores: they, and a NUL behind them unless the read fails. -/
theorem stored_of_ends {k : Nat} (h : ∀ t < k, (reads t).Goes) (hk : ¬ (reads k).Goes) (n : Nat) :
    ∀ x ∈ (after junk reads n).d.stored, x < k ∨ x = k ∧ reads k ≠ .error := by
  intro x hx
  rcases Nat.lt_or_ge k n with hlt | hge
  · -- the line has ended, and no read behind it stores anything
    obtain ⟨hcount, hended, hs⟩ := @after_goes junk reads k h
    obtain ⟨m, rfl⟩ := Nat.exists_eq_add_of_le hlt
    rw [after_ends h hk, (turn_ends hended hk).2] at hx
    split_ifs at hx with hstores
    · exact Or.inl ((hs x).mp hx)
    · rw [Buffer.stored_put, List.mem_cons, hcount, hs] at hx
      rcases hx with rfl | hlt'
      · exact Or.inr ⟨rfl, fun hfails => hstores (Or.inl hfails)⟩
      · exact Or.inl hlt'
  · obtain ⟨-, -, hs⟩ := @after_goes junk reads n fun t ht => h t (ht.trans_le hge)
    exact Or.inl (((hs x).mp hx).trans_le hge)

end Line

/-- `read_line` stays inside its block exactly when one of the first 64 reads ends the line, or the
read behind them fails. -/
theorem lineInside_iff (junk : Nat → UInt8) (reads : Nat → ReadResult) :
    LineInside junk reads ↔
      (∃ k < lineBuffer, ¬ (reads k).Goes) ∨ reads lineBuffer = .error := by
  classical
  constructor
  · intro h
    by_contra hnone
    push Not at hnone
    obtain ⟨hgoes, herror⟩ := hnone
    obtain ⟨hcount, hended, -⟩ := @Line.after_goes junk _ lineBuffer hgoes
    -- the next read stores behind the block: its character, or the NUL
    have hout : lineBuffer ∈ (Line.after junk reads (lineBuffer + 1)).d.stored := by
      rw [Line.after_succ]
      by_cases hnext : (reads lineBuffer).Goes
      · obtain ⟨c, hread, hc⟩ := hnext
        rw [hread, (Line.turn_goes hended hc).1, Buffer.stored_put, hcount]
        exact List.mem_cons_self
      · have hstores : ¬ (reads lineBuffer = .error ∨ reads lineBuffer = .ended ∧
            (Line.after junk reads lineBuffer).char_count = 0) := by
          rintro (hfails | ⟨-, hzero⟩)
          · exact herror hfails
          · rw [hcount] at hzero
            exact absurd hzero (by decide)
        rw [(Line.turn_ends hended hnext).2, if_neg hstores, Buffer.stored_put, hcount]
        exact List.mem_cons_self
    exact absurd (h _ lineBuffer hout) (Nat.lt_irrefl _)
  · intro h n x hx
    have hend : ∃ k, ¬ (reads k).Goes := by
      rcases h with ⟨k, -, hk⟩ | hfails
      · exact ⟨k, hk⟩
      · exact ⟨lineBuffer, fun ⟨c, hc, _⟩ => by simp [hfails] at hc⟩
    -- the first read that ends the line decides
    have hfirst : ∀ t < Nat.find hend, (reads t).Goes := fun t ht =>
      not_not.mp (Nat.find_min hend ht)
    have hx' := Line.stored_of_ends hfirst (Nat.find_spec hend) n x hx
    rcases h with ⟨k, hlt, hk⟩ | hfails
    · have hle := Nat.find_min' hend hk
      omega
    · have hle : Nat.find hend ≤ lineBuffer :=
        Nat.find_min' hend fun ⟨c, hc, _⟩ => by simp [hfails] at hc
      rcases hx' with hlt | ⟨rfl, hreads⟩
      · exact hlt.trans_le hle
      · apply lt_of_le_of_ne hle
        intro heq
        rw [heq] at hreads
        exact hreads hfails

/-- The reads of a script go on for the characters of its first line. -/
theorem goes_script_iff (content : List UInt8) : ∀ n,
    (∀ k < n, (scriptReads content k).Goes) ↔ n ≤ (content.takeWhile (· != 0x0A)).length := by
  induction content with
  | nil =>
    intro n
    cases n with
    | zero => simp
    | succ n =>
      refine ⟨fun h => ?_, fun h => absurd h (Nat.not_succ_le_zero n)⟩
      obtain ⟨c, hread, -⟩ := h 0 (Nat.succ_pos n)
      cases hread
  | cons c rest ih =>
    intro n
    cases n with
    | zero => simp
    | succ n =>
      have hhead : (scriptReads (c :: rest) 0).Goes ↔ c ≠ 0x0A := by
        simp [scriptReads, ReadResult.Goes]
      have htail : ∀ k, scriptReads (c :: rest) (k + 1) = scriptReads rest k := fun k => by
        simp [scriptReads]
      rw [Nat.forall_lt_succ_left, hhead]
      simp only [htail, ih]
      by_cases hc : c = 0x0A <;> simp [hc]

/-- For a script, the line has to be shorter than the block. -/
theorem lineInside_script_iff (junk : Nat → UInt8) (content : List UInt8) :
    LineInside junk (scriptReads content) ↔
      (content.takeWhile (· != 0x0A)).length < lineBuffer := by
  have hscript : scriptReads content lineBuffer ≠ .error := by
    unfold scriptReads
    split <;> simp
  rw [lineInside_iff, or_iff_left hscript, ← Nat.not_le, ← goes_script_iff]
  push Not
  rfl

/-- For every stream at `getchar` and every script, whatever the blocks hold before: `read_command`
stays inside its block and leaves a string there exactly when a NUL comes among the 2000 characters
from the first one typed, and `read_line` stays inside its block exactly when the line has fewer
than 64 characters. -/
theorem input_inside_iff (junk stream : Nat → UInt8) (content : List UInt8) :
    (CommandInside junk stream ↔ CommandFits stream) ∧
      (LineInside junk (scriptReads content) ↔
        (content.takeWhile (· != 0x0A)).length < lineBuffer) :=
  ⟨commandInside_iff junk stream, lineInside_script_iff junk content⟩

/-- Two thousand characters without a NUL, and a script line of 64 characters. -/
theorem not_input_inside :
    ¬ CommandInside (fun _ => 0) (fun k => if k < 2000 then 0x61 else 0) ∧
      ¬ LineInside (fun _ => 0) (scriptReads (List.replicate 64 0x61)) := by
  constructor
  · rw [commandInside_iff]
    intro h
    obtain ⟨j, hj, hnul⟩ := h 0 ⟨by decide, fun j hj => absurd hj (Nat.not_lt_zero j)⟩
    rw [Nat.zero_add] at hnul
    exact absurd ((if_pos hj).symm.trans hnul) (by decide)
  · rw [lineInside_script_iff]
    decide

end ShellInput

end Sbunix
