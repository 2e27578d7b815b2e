import Mathlib.Data.Nat.Bitwise
import Mathlib.Tactic.Ring
import Mathlib.Tactic.Common

/-!
# Byte memories and little-endian words

A memory is a total map from addresses to bytes. Words of eight bytes are read and written
little-endian (`read64`, `write64`), pages are cleared word by word (`clear`) and blocks are
copied byte by byte in ascending order (`copy`), as the usual C loops do; `fill` and
`writeBytes` store a constant byte and a string.

* `read64_write64_self`, `read64_write64_of_disjoint` — the two word laws;
* `clear_apply`, `copy_apply`, `copy_down_apply`, `fill_apply` — the closed forms of the loops;
* `read64_congr` — a word depends on its eight bytes only, which is the frame rule every
  client of this file uses.
-/

namespace ByteMem

/-- A byte-addressed memory. -/
abbrev Mem := Nat → UInt8

/-- The little-endian word of eight bytes at `a`. -/
def read64 (m : Mem) (a : Nat) : Nat :=
  (m a).toNat + 2 ^ 8 * (m (a + 1)).toNat + 2 ^ 16 * (m (a + 2)).toNat
    + 2 ^ 24 * (m (a + 3)).toNat + 2 ^ 32 * (m (a + 4)).toNat + 2 ^ 40 * (m (a + 5)).toNat
    + 2 ^ 48 * (m (a + 6)).toNat + 2 ^ 56 * (m (a + 7)).toNat

/-- Store the low eight bytes of `v` at `a`, little-endian. -/
def write64 (m : Mem) (a v : Nat) : Mem := fun x =>
  if a ≤ x ∧ x < a + 8 then UInt8.ofNat (v / 256 ^ (x - a)) else m x

/-- Store one byte. -/
def write8 (m : Mem) (a : Nat) (b : UInt8) : Mem := fun x => if x = a then b else m x

/-- Clear `n` consecutive words from `a` upwards. -/
def clear (m : Mem) (a : Nat) : Nat → Mem
  | 0 => m
  | n + 1 => clear (write64 m a 0) (a + 8) n

/-- Copy `n` bytes from `src` to `dst`, one byte after the other in ascending order. -/
def copy (m : Mem) (src dst : Nat) : Nat → Mem
  | 0 => m
  | n + 1 => copy (write8 m dst (m src)) (src + 1) (dst + 1) n

/-- Fill `n` bytes from `a` upwards with `b`. -/
def fill (m : Mem) (a : Nat) (b : UInt8) : Nat → Mem
  | 0 => m
  | n + 1 => fill (write8 m a b) (a + 1) b n

/-- Store the bytes `bs` from `a` upwards. -/
def writeBytes (m : Mem) (a : Nat) : List UInt8 → Mem
  | [] => m
  | b :: bs => writeBytes (write8 m a b) (a + 1) bs

/-! ### Words -/

theorem read64_lt (m : Mem) (a : Nat) : read64 m a < 2 ^ 64 := by
  have h0 := (m a).toNat_lt
  have h1 := (m (a + 1)).toNat_lt
  have h2 := (m (a + 2)).toNat_lt
  have h3 := (m (a + 3)).toNat_lt
  have h4 := (m (a + 4)).toNat_lt
  have h5 := (m (a + 5)).toNat_lt
  have h6 := (m (a + 6)).toNat_lt
  have h7 := (m (a + 7)).toNat_lt
  unfold read64
  omega

/-- A word depends on its eight bytes only. -/
theorem read64_congr {m m' : Mem} {a : Nat} (h : ∀ x, a ≤ x → x < a + 8 → m x = m' x) :
    read64 m a = read64 m' a := by
  unfold read64
  rw [h a (by omega) (by omega), h (a + 1) (by omega) (by omega),
    h (a + 2) (by omega) (by omega), h (a + 3) (by omega) (by omega),
    h (a + 4) (by omega) (by omega), h (a + 5) (by omega) (by omega),
    h (a + 6) (by omega) (by omega), h (a + 7) (by omega) (by omega)]

theorem write64_of_out {m : Mem} {a v x : Nat} (h : x < a ∨ a + 8 ≤ x) :
    write64 m a v x = m x := by
  unfold write64
  rw [if_neg (by omega)]

theorem read64_write64_self (m : Mem) (a : Nat) {v : Nat} (hv : v < 2 ^ 64) :
    read64 (write64 m a v) a = v := by
  have hb : ∀ k < 8, (write64 m a v (a + k)).toNat = v / 256 ^ k % 256 := by
    intro k hk
    unfold write64
    rw [if_pos (by omega), Nat.add_sub_cancel_left, UInt8.toNat_ofNat']
  unfold read64
  rw [show write64 m a v a = write64 m a v (a + 0) from rfl, hb 0 (by omega), hb 1 (by omega),
    hb 2 (by omega), hb 3 (by omega), hb 4 (by omega), hb 5 (by omega), hb 6 (by omega),
    hb 7 (by omega)]
  norm_num
  omega

theorem read64_write64_of_disjoint (m : Mem) {a b v : Nat} (h : a + 8 ≤ b ∨ b + 8 ≤ a) :
    read64 (write64 m a v) b = read64 m b :=
  read64_congr fun _ hx hx' => write64_of_out (by omega)

/-- A word with an all-zero block under it is zero. -/
theorem read64_eq_zero {m : Mem} {a : Nat} (h : ∀ x, a ≤ x → x < a + 8 → m x = 0) :
    read64 m a = 0 := by
  have h0 : read64 m a = read64 (fun _ => 0) a := read64_congr h
  rw [h0]
  simp [read64]

/-- The top byte of a word below `2 ^ 56` is zero. -/
theorem toNat_top_of_read64_lt {m : Mem} {a : Nat} (h : read64 m a < 2 ^ 56) :
    (m (a + 7)).toNat = 0 := by
  unfold read64 at h
  omega

/-- The parity of a word is the parity of its first byte. -/
theorem read64_mod_two (m : Mem) (a : Nat) : read64 m a % 2 = (m a).toNat % 2 := by
  unfold read64
  omega

/-! ### Blocks -/

theorem clear_apply (m : Mem) (a n x : Nat) :
    clear m a n x = if a ≤ x ∧ x < a + 8 * n then 0 else m x := by
  induction n generalizing m a with
  | zero =>
    rw [if_neg (by omega)]
    rfl
  | succ n ih =>
    rw [clear, ih]
    by_cases h : a + 8 ≤ x ∧ x < a + 8 + 8 * n
    · rw [if_pos h, if_pos (by omega)]
    · rw [if_neg h, write64]
      by_cases h' : a ≤ x ∧ x < a + 8
      · rw [if_pos h', if_pos (by omega)]
        simp
      · rw [if_neg h', if_neg (by omega)]

/-- A word inside a cleared block is zero. -/
theorem read64_clear (m : Mem) {a n b : Nat} (h : a ≤ b) (h' : b + 8 ≤ a + 8 * n) :
    read64 (clear m a n) b = 0 := by
  refine read64_eq_zero fun x hx hx' => ?_
  rw [clear_apply, if_pos (by omega)]

/-- Copying between disjoint blocks moves every byte and touches nothing else. -/
theorem copy_apply (m : Mem) {src dst n : Nat} (h : src + n ≤ dst ∨ dst + n ≤ src) (x : Nat) :
    copy m src dst n x = if dst ≤ x ∧ x < dst + n then m (src + (x - dst)) else m x := by
  induction n generalizing m src dst with
  | zero =>
    rw [if_neg (by omega)]
    rfl
  | succ n ih =>
    rw [copy, ih _ (by omega)]
    by_cases hx : dst + 1 ≤ x ∧ x < dst + 1 + n
    · rw [if_pos hx, if_pos (by omega), write8, if_neg (by omega)]
      congr 1
      omega
    · rw [if_neg hx, write8]
      by_cases hxd : x = dst
      · subst hxd
        rw [if_pos rfl, if_pos (by omega)]
        simp
      · rw [if_neg hxd, if_neg (by omega)]

/-- Copying leaves everything outside the destination block alone, overlapping or not. -/
theorem copy_of_out (m : Mem) {src dst n x : Nat} (h : x < dst ∨ dst + n ≤ x) :
    copy m src dst n x = m x := by
  induction n generalizing m src dst with
  | zero => rfl
  | succ n ih =>
    rw [copy, ih _ (by omega), write8, if_neg (by omega)]

/-- Copying downwards moves every byte too, overlapping or not: no byte is read again once it has
been written. -/
theorem copy_down_apply (m : Mem) {src dst n : Nat} (h : dst ≤ src) (x : Nat) :
    copy m src dst n x = if dst ≤ x ∧ x < dst + n then m (src + (x - dst)) else m x := by
  induction n generalizing m src dst with
  | zero =>
    rw [if_neg (by omega)]
    rfl
  | succ n ih =>
    rw [copy]
    by_cases hxd : x = dst
    · subst hxd
      rw [copy_of_out _ (by omega), write8, if_pos rfl, if_pos (by omega), Nat.sub_self,
        Nat.add_zero]
    · rw [ih _ (by omega)]
      by_cases hx : dst + 1 ≤ x ∧ x < dst + 1 + n
      · rw [if_pos hx, if_pos (by omega), write8, if_neg (by omega)]
        congr 1
        omega
      · rw [if_neg hx, write8, if_neg hxd, if_neg (by omega)]

theorem fill_apply (m : Mem) (a n x : Nat) (b : UInt8) :
    fill m a b n x = if a ≤ x ∧ x < a + n then b else m x := by
  induction n generalizing m a with
  | zero =>
    rw [if_neg (by omega)]
    rfl
  | succ n ih =>
    rw [fill, ih]
    by_cases hx : a + 1 ≤ x ∧ x < a + 1 + n
    · rw [if_pos hx, if_pos (by omega)]
    · rw [if_neg hx, write8]
      by_cases hxa : x = a
      · rw [if_pos hxa, if_pos (by omega)]
      · rw [if_neg hxa, if_neg (by omega)]

theorem writeBytes_of_out (m : Mem) {a x : Nat} {bs : List UInt8}
    (h : x < a ∨ a + bs.length ≤ x) : writeBytes m a bs x = m x := by
  induction bs generalizing m a with
  | nil => rfl
  | cons b bs ih =>
    simp only [List.length_cons] at h
    rw [writeBytes, ih _ (by omega), write8, if_neg (by omega)]

end ByteMem
