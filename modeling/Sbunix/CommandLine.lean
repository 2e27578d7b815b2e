import Mathlib.Data.List.Basic
import Sbunix.Lib.Words
import Sbunix.Tarfs

/-!
# The command line of the shell

`parse_command` reads a line with two indices, `start` and `end`. A word is open while
`start ≤ end`, and `end == 0` is taken to mean that no word has been seen yet. A word of one
character at the front of the line ends at index 0 as well.

* `Scan.loop_spec` — from the second index on, the loop finds the words of the line;
* `parse_command_splits` — the line is split into its words unless its first character is a word.
-/

namespace Sbunix

open Words

/-- `strcmp` of the shell. -/
def shellStrcmp : List UInt8 → List UInt8 → Int
  | [], [] => 0
  | [], d :: _ => 0 - charInt d
  | c :: _, [] => charInt c
  | c :: str1, d :: str2 => if c = d then shellStrcmp str1 str2 else charInt c - charInt d

/-- Space, tab, bell, carriage return and newline. -/
def isBlank (c : UInt8) : Bool :=
  c == 0x20 || c == 0x09 || c == 0x07 || c == 0x0D || c == 0x0A

/-- `|`. -/
def bar : List UInt8 := [0x7C]

/-- `&`. -/
def ampersand : List UInt8 := [0x26]

/-- The locals of `parse_command` and the flags that it sets; `last` is its `end`. An element of
`comArgs` is the string that it points to, or `none` for `NULL`, and `touched` lists the elements
that were read or written. (`buffer` grows with `n`, and nothing reads it.) -/
structure Scan where
  comArgs : Int → Option (List UInt8)
  touched : List Int
  start : Nat
  last : Nat
  n : Int
  pipeFlag : Bool
  background : Bool

namespace Scan

/-- The locals and the flags before the loop. The array is not cleared; the main loop has reset
both flags after the command before. -/
def init (memory : Int → Option (List UInt8)) : Scan := ⟨memory, [], 0, 0, 0, false, false⟩

/-- `com_args[j] = p`. -/
def put (s : Scan) (j : Int) (p : Option (List UInt8)) : Scan :=
  { s with comArgs := Function.update s.comArgs j p, touched := j :: s.touched }

/-- `token(command, x, y)`. -/
def token (command : List UInt8) (x y : Nat) : List UInt8 := (command.drop x).take (y + 1 - x)

/-- `strcmp(com_args[n] = token(command, start, end), "|") == 0` and the flag. -/
def putToken (command : List UInt8) (s : Scan) : Scan :=
  let argument := token command s.start s.last
  let s := s.put s.n (some argument)
  if shellStrcmp argument bar = 0 then { s with pipeFlag := true } else s

/-- One turn of the loop, at the character `c` of index `i`. -/
def char (command : List UInt8) (i : Nat) (c : UInt8) (s : Scan) : Scan :=
  if isBlank c = false then { s with last := i }
  else if s.last < s.start then { s with start := s.start + 1 }
  else if s.last = 0 then { s with start := s.start + 1 }
  else { putToken command s with n := s.n + 1, start := i + 1 }

/-- The loop from index `i` on; the characters that are left are given. -/
def loop (command : List UInt8) : Nat → List UInt8 → Scan → Scan
  | _, [], s => s
  | i, c :: rest, s => loop command (i + 1) rest (char command i c s)

/-- The last word, at `n`, and the end of the array. A string at `NULL` cannot be compared. -/
def lastArgument (s : Scan) : Option Scan :=
  match s.comArgs s.n with
  | none => none
  | some argument =>
    if shellStrcmp argument ampersand = 0 then some { s.put s.n none with background := true }
    else some ({ s with n := s.n + 1, touched := s.n :: s.touched }.put (s.n + 1) none)

/-- What follows the loop. -/
def finish (command : List UInt8) (s : Scan) : Option Scan :=
  lastArgument (if s.start ≤ s.last then putToken command s else { s with n := s.n - 1 })

end Scan

/-- `parse_command(command)`, where the array `com_args` is allocated in `memory`. The outcome is
`none` where it faults and `some none` where it returns `NULL`. -/
def parseCommand (memory : Int → Option (List UInt8)) (command : List UInt8) :
    Option (Option Scan) :=
  if command = [] then some none
  else ((Scan.loop command 0 command (.init memory)).finish command).map some

/-! ### What it is for -/

/-- The words of a line. -/
def commandWords (command : List UInt8) : List (List UInt8) := words isBlank command

/-- The words without a final `&`. -/
def dropAmpersand (ws : List (List UInt8)) : List (List UInt8) :=
  if ws.getLast? = some ampersand then ws.dropLast else ws

/-- A line of the words `ws` has been split: the array holds the arguments and then `NULL`, and
both flags are right. -/
structure Splits (ws : List (List UInt8)) (s : Scan) : Prop where
  args : ∀ j : Nat, j ≤ (dropAmpersand ws).length → s.comArgs j = (dropAmpersand ws)[j]?
  background : s.background = true ↔ ws.getLast? = some ampersand
  pipeFlag : s.pipeFlag = true ↔ bar ∈ ws

/-- The first character is a word. -/
def ShortFirstWord : List UInt8 → Prop
  | c :: d :: _ => isBlank c = false ∧ isBlank d = true
  | _ => False

instance : DecidablePred ShortFirstWord
  | [] => inferInstanceAs (Decidable False)
  | [_] => inferInstanceAs (Decidable False)
  | c :: d :: _ => inferInstanceAs (Decidable (isBlank c = false ∧ isBlank d = true))

variable {command pre rest cur argument : List UInt8} {ws : List (List UInt8)} {s : Scan}
  {memory : Int → Option (List UInt8)} {c d : UInt8}

/-! ### Comparing -/

/-- A character is its `char` modulo 256. -/
theorem charInt_emod (c : UInt8) : charInt c % 256 = c.toNat := by
  have hc := c.toNat_lt
  have h : charInt c % 256 = (c.toNat : Int) % 256 := Int.bmod_emod ..
  omega

theorem charInt_inj : charInt c = charInt d ↔ c = d := by
  constructor
  · intro h
    have hc := charInt_emod c
    have hd := charInt_emod d
    rw [h] at hc
    exact UInt8.toNat_inj.mp (by omega)
  · intro h
    rw [h]

theorem charInt_zero : charInt 0 = 0 := by decide

theorem charInt_eq_zero : charInt c = 0 ↔ c = 0 := by
  rw [← charInt_inj, charInt_zero]

/-- Two strings without a NUL byte compare equal only where they are equal. -/
theorem shellStrcmp_eq_zero {str1 str2 : List UInt8} (h1 : 0 ∉ str1) (h2 : 0 ∉ str2) :
    shellStrcmp str1 str2 = 0 ↔ str1 = str2 := by
  -- along the first string; the two that end early differ by a character, which is not NUL
  induction str1 generalizing str2 with
  | nil =>
    cases str2 with
    | nil => simp [shellStrcmp]
    | cons d str2 =>
      have hd : charInt d ≠ 0 := fun h => h2 (by rw [charInt_eq_zero.mp h]; simp)
      simp only [shellStrcmp, reduceCtorEq, iff_false]
      omega
  | cons c str1 ih =>
    cases str2 with
    | nil =>
      have hc : charInt c ≠ 0 := fun h => h1 (by rw [charInt_eq_zero.mp h]; simp)
      simpa only [shellStrcmp, reduceCtorEq, iff_false] using hc
    | cons d str2 =>
      rw [shellStrcmp]
      by_cases hcd : c = d
      · rw [if_pos hcd, ih (fun h => h1 (List.mem_cons_of_mem c h))
          (fun h => h2 (List.mem_cons_of_mem d h)), hcd, List.cons_inj_right]
      · have hne : charInt c ≠ charInt d := fun h => hcd (charInt_inj.mp h)
        rw [if_neg hcd, List.cons.injEq]
        constructor
        · intro h
          omega
        · intro h
          exact absurd h.1 hcd

theorem bar_notMem : (0 : UInt8) ∉ bar := by decide

theorem ampersand_notMem : (0 : UInt8) ∉ ampersand := by decide

/-! ### The loop -/

namespace Scan

theorem put_self (s : Scan) (j : Int) (p : Option (List UInt8)) : (s.put j p).comArgs j = p :=
  Function.update_self ..

theorem put_of_ne {j j' : Int} (h : j' ≠ j) (s : Scan) (p : Option (List UInt8)) :
    (s.put j p).comArgs j' = s.comArgs j' :=
  Function.update_of_ne h ..

theorem putToken_last : (putToken command s).last = s.last := by
  simp only [putToken, put]
  split <;> rfl

theorem putToken_n : (putToken command s).n = s.n := by
  simp only [putToken, put]
  split <;> rfl

/-- The array holds the words `ws`. -/
structure Stored (s : Scan) (ws : List (List UInt8)) : Prop where
  args : ∀ j : Nat, j < ws.length → s.comArgs j = ws[j]?
  pipeFlag : s.pipeFlag = true ↔ bar ∈ ws
  background : s.background = false
  touched : ∀ j ∈ s.touched, 0 ≤ j ∧ j < ws.length

/-- The prefix `pre` has been read: the words `ws` are closed, and `cur` is open. -/
structure Reading (s : Scan) (pre : List UInt8) (ws : List (List UInt8)) (cur : List UInt8) :
    Prop extends Stored s ws where
  n : s.n = ws.length
  start : s.start + cur.length = pre.length
  closedAt : cur = [] → s.last < pre.length
  openAt : cur ≠ [] → s.last + 1 = pre.length
  text : cur <:+ pre

/-- The open word is the token between the two indices. -/
theorem Reading.token (h : Reading s pre ws cur) (hcur : cur ≠ []) (rest : List UInt8) :
    token (pre ++ rest) s.start s.last = cur := by
  obtain ⟨front, rfl⟩ := h.text
  have hstart := h.start
  have hlast := h.openAt hcur
  rw [List.length_append] at hstart hlast
  have hlen : s.last + 1 - s.start = cur.length := by omega
  rw [Scan.token, hlen, show s.start = front.length by omega, List.append_assoc,
    List.drop_left, List.take_left]

theorem Stored.putToken (h : Stored s ws) (hn : s.n = ws.length)
    (ht : token command s.start s.last = cur) (h0 : 0 ∉ cur) :
    Stored (putToken command s) (ws ++ [cur]) := by
  have hargs : ∀ j : Nat, j < (ws ++ [cur]).length →
      (s.put s.n (some cur)).comArgs j = (ws ++ [cur])[j]? := by
    intro j hj
    rw [List.length_append, List.length_singleton] at hj
    rw [hn]
    by_cases hjn : j = ws.length
    · rw [hjn, put_self, List.getElem?_concat_length]
    · rw [put_of_ne (by omega), h.args j (by omega), List.getElem?_append_left (by omega)]
  have htouched : ∀ j ∈ (s.put s.n (some cur)).touched, 0 ≤ j ∧ j < (ws ++ [cur]).length := by
    intro j hj
    rw [List.length_append, List.length_singleton]
    rcases List.mem_cons.mp hj with rfl | hj
    · omega
    · have := h.touched j hj
      omega
  rw [Scan.putToken, ht]
  by_cases hbar : shellStrcmp cur bar = 0
  · rw [if_pos hbar]
    refine ⟨hargs, ?_, h.background, htouched⟩
    rw [(shellStrcmp_eq_zero h0 bar_notMem).mp hbar]
    simp
  · rw [if_neg hbar]
    refine ⟨hargs, ?_, h.background, htouched⟩
    rw [shellStrcmp_eq_zero h0 bar_notMem] at hbar
    rw [List.mem_append, List.mem_singleton, or_iff_left (Ne.symm hbar)]
    exact h.pipeFlag

/-- A blank after the closed words: `start` moves on. -/
theorem Reading.char_closed (h : Reading s pre ws []) (hc : isBlank c = true) :
    Reading (char command pre.length c s) (pre ++ [c]) ws [] := by
  have hstart : s.start = pre.length := h.start
  have hlast := h.closedAt rfl
  -- `start` is ahead of `end`
  rw [char, if_neg (by simp [hc]), if_pos (by omega)]
  refine ⟨⟨h.args, h.pipeFlag, h.background, h.touched⟩, h.n, ?_, fun _ => ?_, fun h => ?_, ?_⟩
  · simp only [List.length_nil, List.length_append, List.length_singleton]
    omega
  · simp only [List.length_append, List.length_singleton]
    omega
  · exact absurd rfl h
  · exact List.nil_suffix

/-- A blank after the open word, which is stored. This needs `end ≠ 0`. -/
theorem Reading.char_open (h : Reading s pre ws cur) (hcur : cur ≠ []) (hpos : 2 ≤ pre.length)
    (h0 : 0 ∉ cur) (hc : isBlank c = true) (rest : List UInt8) :
    Reading (char (pre ++ rest) pre.length c s) (pre ++ [c]) (ws ++ [cur]) [] := by
  have hstart := h.start
  have hlast := h.openAt hcur
  have hlen := List.length_pos_iff.mpr hcur
  have hst := h.toStored.putToken h.n (h.token hcur rest) h0
  -- `start ≤ end`, and `end` is not 0 since two characters at least have been read
  rw [char, if_neg (by simp [hc]), if_neg (by omega), if_neg (by omega)]
  refine ⟨⟨hst.args, hst.pipeFlag, hst.background, hst.touched⟩, ?_, ?_, fun _ => ?_,
    fun h => absurd rfl h, List.nil_suffix⟩
  · simp only [h.n, List.length_append, List.length_singleton, Nat.cast_add,
      Nat.cast_one]
  · simp only [List.length_nil, List.length_append, List.length_singleton, Nat.add_zero]
  · simp only [putToken_last, List.length_append, List.length_singleton]
    omega

/-- A character of a word. -/
theorem Reading.char_word (h : Reading s pre ws cur) (hc : isBlank c = false) :
    Reading (char command pre.length c s) (pre ++ [c]) ws (cur ++ [c]) := by
  rw [char, if_pos hc]
  refine ⟨⟨h.args, h.pipeFlag, h.background, h.touched⟩, h.n, ?_, fun h => ?_, fun _ => ?_, ?_⟩
  · have := h.start
    simp only [List.length_append, List.length_singleton]
    omega
  · exact absurd h (by simp)
  · simp only [List.length_append, List.length_singleton]
  · obtain ⟨front, hfront⟩ := h.text
    exact ⟨front, by rw [← hfront, List.append_assoc]⟩

/-- **From the second index on, the loop finds the words.** The only word that it may not close is
one that ends at index 0. -/
theorem loop_spec (h0 : 0 ∉ pre ++ rest) (h : Reading s pre ws cur) (hpos : pre ≠ [])
    (hcur : cur ≠ [] → 2 ≤ pre.length) :
    ∃ ws' cur', Reading (loop (pre ++ rest) pre.length rest s) (pre ++ rest) ws' cur' ∧
      ws' ++ closed cur' = ws ++ wordsFrom isBlank cur rest := by
  -- on the characters that are left; what has been read is the invariant `Reading`
  induction rest generalizing pre s ws cur with
  | nil => exact ⟨ws, cur, by rwa [List.append_nil], rfl⟩
  | cons c rest ih =>
    have hsplit : pre ++ c :: rest = (pre ++ [c]) ++ rest := by
      rw [List.append_assoc, List.singleton_append]
    have hlen : (pre ++ [c]).length = pre.length + 1 := by
      rw [List.length_append, List.length_singleton]
    have h0c : 0 ∉ cur := by
      obtain ⟨front, hfront⟩ := h.text
      intro hm
      exact h0 (by rw [← hfront]; simp [hm])
    have hnil : ([] : List UInt8) ≠ [] → 2 ≤ (pre ++ [c]).length := fun h => absurd rfl h
    have hne : pre ++ [c] ≠ [] := by simp
    rw [loop, hsplit, ← hlen]
    rw [hsplit] at h0
    by_cases hc : isBlank c = true
    · rw [wordsFrom, if_pos hc]
      by_cases hopen : cur = []
      · subst hopen
        exact ih h0 (h.char_closed hc) hne hnil
      · -- the blank closes the word, here and in `wordsFrom`
        have hstep := h.char_open hopen (hcur hopen) h0c hc ([c] ++ rest)
        rw [← List.append_assoc] at hstep
        obtain ⟨ws', cur', hr, hw⟩ := ih h0 hstep hne hnil
        refine ⟨ws', cur', hr, ?_⟩
        rw [hw, closed_of_ne_nil hopen, List.append_assoc]
    · rw [wordsFrom, if_neg hc]
      refine ih h0 (h.char_word (eq_false_of_ne_true hc)) hne fun _ => ?_
      have := List.length_pos_iff.mpr hpos
      omega

/-! ### The last word -/

/-- Removing a final `&`. -/
theorem dropAmpersand_concat (front : List (List UInt8)) (argument : List UInt8) :
    dropAmpersand (front ++ [argument]) =
      if argument = ampersand then front else front ++ [argument] := by
  simp only [dropAmpersand, List.getLast?_concat, Option.some_inj, List.dropLast_concat]

/-- A first word that is no `&` stays. -/
theorem dropAmpersand_cons {w : List UInt8} (hw : w ≠ ampersand) (ws : List (List UInt8)) :
    ∃ ws', dropAmpersand (w :: ws) = w :: ws' := by
  cases ws with
  | nil =>
    refine ⟨[], if_neg ?_⟩
    rw [List.getLast?_singleton, Option.some_inj]
    exact hw
  | cons w' ws =>
    unfold dropAmpersand
    split
    · exact ⟨(w' :: ws).dropLast, List.dropLast_cons_cons⟩
    · exact ⟨w' :: ws, rfl⟩

theorem mem_of_mem_dropAmpersand {w : List UInt8} (h : w ∈ dropAmpersand ws) : w ∈ ws := by
  unfold dropAmpersand at h
  split at h
  · exact List.dropLast_subset _ h
  · exact h

/-- The last word is at `n`: it is kept, or it is the `&`. -/
theorem Stored.finish {front : List (List UInt8)}
    (h : Stored s (front ++ [argument])) (hn : s.n = front.length) (h0 : 0 ∉ argument) :
    ∃ p, lastArgument s = some p ∧ Splits (front ++ [argument]) p ∧
      ∀ j ∈ p.touched, 0 ≤ j ∧ j ≤ front.length + 1 := by
  have hlast : s.comArgs s.n = some argument := by
    rw [hn, h.args front.length (by simp), List.getElem?_concat_length]
  have htouched : ∀ j ∈ s.touched, 0 ≤ j ∧ j < (front.length : Int) + 1 := by
    intro j hj
    have := h.touched j hj
    rw [List.length_append, List.length_singleton] at this
    omega
  have hargs : ∀ j : Nat, j < front.length + 1 → s.comArgs j = (front ++ [argument])[j]? :=
    fun j hj => h.args j (by rwa [List.length_append, List.length_singleton])
  rw [lastArgument, hlast]
  simp only [shellStrcmp_eq_zero h0 ampersand_notMem]
  by_cases hamp : argument = ampersand
  · -- the `&` gives way to the `NULL`
    rw [if_pos hamp]
    refine ⟨_, rfl, ⟨fun j hj => ?_, ?_, h.pipeFlag⟩, fun j hj => ?_⟩
    · rw [dropAmpersand_concat, if_pos hamp] at hj ⊢
      by_cases hjn : j = front.length
      · rw [hjn, List.getElem?_eq_none (Nat.le_refl _), ← hn]
        exact put_self ..
      · have hput := put_of_ne (show (j : Int) ≠ s.n by omega) s none
        have hfront : front[j]? = (front ++ [argument])[j]? :=
          (List.getElem?_append_left (by omega)).symm
        rw [hfront, ← hargs j (by omega)]
        exact hput
    · simp only [List.getLast?_concat, hamp]
    · rcases List.mem_cons.mp hj with rfl | hj
      · omega
      · have := htouched j hj
        omega
  · rw [if_neg hamp]
    refine ⟨_, rfl, ⟨fun j hj => ?_, ?_, h.pipeFlag⟩, fun j hj => ?_⟩
    · rw [dropAmpersand_concat, if_neg hamp] at hj ⊢
      rw [List.length_append, List.length_singleton] at hj
      by_cases hjn : j = front.length + 1
      · rw [List.getElem?_eq_none (by simp [hjn]), hjn, hn]
        exact put_self ..
      · rw [put_of_ne (by omega), ← hargs j (by omega)]
    · have hb : s.background = false := h.background
      simp only [put, hb, List.getLast?_concat, Option.some_inj, hamp, Bool.false_eq_true]
    · rcases List.mem_cons.mp hj with rfl | hj
      · omega
      · rcases List.mem_cons.mp hj with rfl | hj
        · omega
        · have := htouched j hj
          omega

/-- **After the loop**: whether a word is still open or not, the last word is looked at. -/
theorem Reading.finish (h : Reading s command ws cur) (h0 : 0 ∉ command)
    (hws : ∀ w ∈ ws, 0 ∉ w) (hne : ws ++ closed cur ≠ []) :
    ∃ p, finish command s = some p ∧ Splits (ws ++ closed cur) p ∧
      ∀ j ∈ p.touched, 0 ≤ j ∧ j ≤ (ws ++ closed cur).length := by
  have hstart := h.start
  rw [Scan.finish]
  by_cases hcur : cur = []
  · -- no word is open: `n` goes back to the last one
    subst hcur
    have hlast := h.closedAt rfl
    rw [List.length_nil, Nat.add_zero] at hstart
    rw [closed_nil, List.append_nil] at hne ⊢
    obtain ⟨front, argument, rfl⟩ := (List.eq_nil_or_concat' ws).resolve_left hne
    have hn := h.n
    rw [List.length_append, List.length_singleton, Nat.cast_add, Nat.cast_one] at hn ⊢
    rw [if_neg (by omega)]
    exact Stored.finish ⟨h.args, h.pipeFlag, h.background, h.touched⟩
      (show s.n - 1 = front.length by omega) (hws argument (by simp))
  · have hlast := h.openAt hcur
    have hlen := List.length_pos_iff.mpr hcur
    have htoken := h.token hcur []
    have h0c : 0 ∉ cur := by
      obtain ⟨front, rfl⟩ := h.text
      exact fun hm => h0 (List.mem_append_right front hm)
    rw [List.append_nil] at htoken
    rw [closed_of_ne_nil hcur, if_pos (by omega)]
    rw [List.length_append, List.length_singleton, Nat.cast_add, Nat.cast_one]
    exact (h.toStored.putToken h.n htoken h0c).finish (putToken_n.trans h.n) h0c

/-- The loop and what follows it, from the second index on. -/
theorem Reading.parse (h : Reading s pre ws cur) (h0 : 0 ∉ pre ++ rest) (hpos : pre ≠ [])
    (hws : ∀ w ∈ ws ++ wordsFrom isBlank cur rest, 0 ∉ w)
    (hcur : cur ≠ [] → 2 ≤ pre.length) (hne : ws ++ wordsFrom isBlank cur rest ≠ []) :
    ∃ p, Scan.finish (pre ++ rest) (loop (pre ++ rest) pre.length rest s) = some p ∧
      Splits (ws ++ wordsFrom isBlank cur rest) p ∧
      ∀ j ∈ p.touched, 0 ≤ j ∧ j ≤ (ws ++ wordsFrom isBlank cur rest).length := by
  obtain ⟨ws', cur', hr, hw⟩ := loop_spec h0 h hpos hcur
  rw [← hw] at hws hne ⊢
  exact hr.finish h0 (fun w hm => hws w (List.mem_append_left _ hm)) hne

theorem reading_init (memory : Int → Option (List UInt8)) (hc : isBlank c = false) :
    Reading (char command 0 c (init memory)) [c] [] [c] := by
  rw [char, if_pos hc]
  exact ⟨⟨fun j hj => absurd hj (Nat.not_lt_zero j), by simp [init], rfl, by simp [init]⟩, rfl, rfl,
    fun h => absurd h (by simp), fun _ => rfl, List.suffix_refl _⟩

theorem reading_blank (memory : Int → Option (List UInt8)) (hc : isBlank c = true) :
    Reading (char command 0 c (init memory)) [c] [] [] := by
  rw [char, if_neg (by simp [hc]), if_neg (by simp [init]),
    if_pos (show (init memory).last = 0 from rfl)]
  exact ⟨⟨fun j hj => absurd hj (Nat.not_lt_zero j), by simp [init], rfl, by simp [init]⟩, rfl, rfl,
    fun _ => Nat.zero_lt_one, fun h => absurd rfl h, List.nil_suffix⟩

end Scan

open Scan

/-- The words of a line have no NUL byte. -/
theorem notMem_of_mem_commandWords (h0 : 0 ∉ command) {w : List UInt8}
    (hw : w ∈ commandWords command) : 0 ∉ w :=
  fun h => h0 (mem_of_mem_words hw h)

/-- A line whose first character is no word is split. -/
theorem parseCommand_of_not_short (memory : Int → Option (List UInt8)) (h0 : 0 ∉ command)
    (hne : commandWords command ≠ []) (hs : ¬ ShortFirstWord command) :
    ∃ p, parseCommand memory command = some (some p) ∧ Splits (commandWords command) p ∧
      ∀ j ∈ p.touched, 0 ≤ j ∧ j ≤ (commandWords command).length := by
  have hws : ∀ w ∈ commandWords command, 0 ∉ w := fun w hw => notMem_of_mem_commandWords h0 hw
  have hcommand : command ≠ [] := by
    rintro rfl
    exact hne words_nil
  rw [parseCommand, if_neg hcommand]
  rw [commandWords, ← wordsFrom_nil] at hne hws ⊢
  suffices ∃ p, finish command (loop command 0 command (init memory)) = some p ∧
      Splits (wordsFrom isBlank [] command) p ∧
      ∀ j ∈ p.touched, 0 ≤ j ∧ j ≤ (wordsFrom isBlank [] command).length by
    obtain ⟨p, hp, hsplit, ht⟩ := this
    exact ⟨p, by rw [hp]; rfl, hsplit, ht⟩
  obtain ⟨c, rest, rfl⟩ := List.exists_cons_of_ne_nil hcommand
  rw [loop]
  by_cases hc : isBlank c = true
  · rw [wordsFrom, if_pos hc, closed_nil] at hne hws ⊢
    exact (reading_blank memory hc).parse h0 (by simp) hws (fun h => absurd rfl h) hne
  · have hc := eq_false_of_ne_true hc
    have hread : Reading (char (c :: rest) 0 c (init memory)) [c] [] [c] := reading_init memory hc
    rw [wordsFrom, if_neg (by simp [hc]), List.nil_append] at hne hws ⊢
    cases rest with
    | nil => exact hread.finish h0 (by simp) hne
    | cons d rest =>
      -- the first word goes on, so that it does not end at index 0
      have hd : isBlank d = false := by
        by_contra hd
        exact hs ⟨hc, eq_true_of_ne_false hd⟩
      rw [wordsFrom, if_neg (by simp [hd])] at hne hws ⊢
      have hread2 : Reading (char (c :: d :: rest) 1 d _) [c, d] [] [c, d] := hread.char_word hd
      exact hread2.parse h0 (by simp) hws (fun _ => by simp) hne

/-! ### A word of one character at the front -/

/-- Nothing has been stored although `i` characters have been read, and `start` is one behind. -/
structure Scan.Behind (s : Scan) (memory : Int → Option (List UInt8)) (i : Nat) : Prop where
  comArgs : s.comArgs = memory
  touched : s.touched = []
  n : s.n = 0
  start : s.start + 1 = i
  last : s.last = 0
  pipeFlag : s.pipeFlag = false
  background : s.background = false

namespace Scan

theorem behind_two (memory : Int → Option (List UInt8)) (hc : isBlank c = false)
    (hd : isBlank d = true) :
    Behind (char command 1 d (char command 0 c (init memory))) memory 2 := by
  -- `end` is still 0 when the blank is read: the word is passed over
  rw [char.eq_1 command 0, if_pos hc, char, if_neg (by simp [hd]),
    if_neg (show ¬ (0 : Nat) < (init memory).start from Nat.lt_irrefl 0), if_pos rfl]
  exact ⟨rfl, rfl, rfl, rfl, rfl, rfl, rfl⟩

theorem Behind.char_blank (h : Behind s memory pre.length) (hpos : 2 ≤ pre.length)
    (hc : isBlank c = true) :
    Behind (char command pre.length c s) memory (pre ++ [c]).length := by
  have hstart := h.start
  have hlast := h.last
  rw [char, if_neg (by simp [hc]), if_pos (by omega), List.length_append, List.length_singleton]
  exact ⟨h.comArgs, h.touched, h.n, show s.start + 1 + 1 = pre.length + 1 by omega, h.last,
    h.pipeFlag, h.background⟩

/-- The next word begins with the blank in front of it. -/
theorem Behind.char_word (h : Behind s memory (pre ++ [d]).length) (hc : isBlank c = false) :
    Reading (char command (pre ++ [d]).length c s) (pre ++ [d] ++ [c]) [] [d, c] := by
  have hstart := h.start
  rw [char, if_pos hc]
  refine ⟨⟨fun j hj => absurd hj (Nat.not_lt_zero j), ?_, h.background, ?_⟩, h.n, ?_,
    fun h => absurd h (by simp), fun _ => ?_, ?_⟩
  · simp [h.pipeFlag]
  · simp [h.touched]
  · simp only [List.length_append, List.length_cons, List.length_nil] at hstart ⊢
    omega
  · simp
  · exact ⟨pre, by simp⟩

/-- **A line that goes on behind**: the element in front of the array is read, or the first
argument begins with a blank. -/
theorem Behind.parse (h : Behind s memory (pre ++ [d]).length) (hpos : pre ≠ [])
    (hd : isBlank d = true) (h0 : 0 ∉ pre ++ [d] ++ rest) {p : Scan}
    (hp : finish (pre ++ [d] ++ rest) (loop (pre ++ [d] ++ rest) (pre ++ [d]).length rest s) =
      some p) :
    -1 ∈ p.touched ∨ ∃ b t, p.comArgs 0 = some (b :: t) ∧ isBlank b = true := by
  have hlen : 2 ≤ (pre ++ [d]).length := by
    have := List.length_pos_iff.mpr hpos
    rw [List.length_append, List.length_singleton]
    omega
  induction rest generalizing pre d s with
  | nil =>
    -- only blanks: `n` becomes `-1`
    left
    have hstart := h.start
    have hlast := h.last
    have hn : s.n - 1 = -1 := by
      rw [h.n]
      rfl
    rw [loop, finish, if_neg (by omega), lastArgument] at hp
    simp only [hn] at hp
    cases hm : s.comArgs (-1) with
    | none =>
      rw [hm] at hp
      cases hp
    | some argument =>
      rw [hm] at hp
      dsimp only at hp
      split_ifs at hp
      · rw [← Option.some_inj.mp hp]
        exact List.mem_cons_self
      · rw [← Option.some_inj.mp hp]
        exact List.mem_cons_of_mem _ List.mem_cons_self
  | cons c rest ih =>
    have hsplit : pre ++ [d] ++ c :: rest = pre ++ [d] ++ [c] ++ rest := by
      rw [List.append_assoc (pre ++ [d]), List.singleton_append]
    have hl : (pre ++ [d] ++ [c]).length = (pre ++ [d]).length + 1 := by
      rw [List.length_append, List.length_singleton]
    rw [loop, hsplit, ← hl] at hp
    rw [hsplit] at h0
    by_cases hc : isBlank c = true
    · exact ih (h.char_blank hlen hc) (by simp) hc h0 hp (by omega)
    · -- from here on the words are found, the first of them with the blank `d` in front
      right
      have hread : Reading (char (pre ++ [d] ++ [c] ++ rest) _ c s) (pre ++ [d] ++ [c]) [] [d, c] :=
        h.char_word (eq_false_of_ne_true hc)
      have hws : ∀ w ∈ wordsFrom isBlank [d, c] rest, 0 ∉ w := by
        intro w hw hz
        refine forall_mem_wordsFrom (P := fun y => y ≠ 0) (fun y hy hy0 => h0 ?_)
          (fun y hy _ hy0 => h0 ?_) w hw 0 hz rfl
        · rw [← hy0]
          rcases List.mem_cons.mp hy with rfl | hy
          · simp
          · rw [List.mem_singleton.mp hy]
            simp
        · rw [← hy0]
          exact List.mem_append_right _ hy
      obtain ⟨t, ws, hopen⟩ := wordsFrom_open (p := isBlank) (show [d, c] ≠ [] by simp) rest
      obtain ⟨p', hp', hsp, -⟩ := hread.parse h0 (by simp) hws (fun _ => by omega)
        (by rw [hopen]; simp)
      rw [hp'] at hp
      obtain rfl := Option.some_inj.mp hp
      obtain ⟨ws', hdrop⟩ := dropAmpersand_cons (w := [d, c] ++ t) (by simp [ampersand]) ws
      have hargs := hsp.args 0 (Nat.zero_le _)
      rw [List.nil_append, hopen, hdrop] at hargs
      exact ⟨d, c :: t, hargs, hd⟩

end Scan

/-! ### The parser -/

/-- **Command lines.** A line is split into its words, unless its first character is a word. -/
theorem parse_command_splits (memory : Int → Option (List UInt8)) (h0 : 0 ∉ command)
    (hne : ∃ c ∈ command, isBlank c = false) (hlen : (commandWords command).length ≤ 31) :
    (∃ s, parseCommand memory command = some (some s) ∧ Splits (commandWords command) s ∧
      ∀ j ∈ s.touched, 0 ≤ j ∧ j < 32) ↔ ¬ ShortFirstWord command := by
  obtain ⟨c, hc, hcb⟩ := hne
  constructor
  · rintro ⟨s, hs, hsplit, ht⟩ hshort
    match command, hshort with
    | c :: d :: rest, ⟨hc, hd⟩ =>
      rw [parseCommand, if_neg (List.cons_ne_nil _ _), Option.map_eq_some_iff] at hs
      obtain ⟨p, hp, hps⟩ := hs
      obtain rfl := Option.some_inj.mp hps
      have hbehind : Behind (char (c :: d :: rest) 1 d (char (c :: d :: rest) 0 c (init memory)))
          memory ([c] ++ [d]).length := behind_two memory hc hd
      rcases hbehind.parse (by simp) hd h0 hp with
        hm | ⟨b, t, hb, hblank⟩
      · have := (ht (-1) hm).1
        omega
      · -- no word of the line has a blank in it
        have harg := hsplit.args 0 (Nat.zero_le _)
        rw [Nat.cast_zero, hb] at harg
        have hword := mem_of_mem_dropAmpersand (List.mem_of_getElem? harg.symm)
        rw [eq_false_of_mem_words hword List.mem_cons_self] at hblank
        cases hblank
  · intro hshort
    obtain ⟨p, hp, hsplit, ht⟩ :=
      parseCommand_of_not_short memory h0 (words_ne_nil hc hcb) hshort
    refine ⟨p, hp, hsplit, fun j hj => ?_⟩
    have := ht j hj
    omega

/-- The line `ls /bin &`. -/
def backgroundLine : List UInt8 := [0x6C, 0x73, 0x20, 0x2F, 0x62, 0x69, 0x6E, 0x20, 0x26]

theorem parse_command_splits_background :
    ∃ s, parseCommand (fun _ => none) backgroundLine = some (some s) ∧
      Splits (commandWords backgroundLine) s ∧ ∀ j ∈ s.touched, 0 ≤ j ∧ j < 32 :=
  (parse_command_splits (fun _ => none) (by decide) ⟨0x6C, by decide, by decide⟩
    (by decide)).mpr (by decide)

/-- The line `a b`. -/
def shortLine : List UInt8 := [0x61, 0x20, 0x62]

/-- Its only argument is ` b`. -/
theorem parse_command_loses_short_word :
    commandWords shortLine = [[0x61], [0x62]] ∧
    ¬ ∃ s, parseCommand (fun _ => none) shortLine = some (some s) ∧
      Splits (commandWords shortLine) s ∧ ∀ j ∈ s.touched, 0 ≤ j ∧ j < 32 := by
  refine ⟨by decide, ?_⟩
  rintro ⟨s, hs, hsplit, -⟩
  have harg : (parseCommand (fun _ => none) shortLine).map (·.map fun s => s.comArgs 0) =
      some (some (some [0x20, 0x62])) := by decide
  rw [hs, Option.map_some, Option.map_some, Option.some_inj, Option.some_inj,
    show s.comArgs 0 = some [0x61] from hsplit.args 0 (Nat.zero_le _)] at harg
  cases harg

end Sbunix
