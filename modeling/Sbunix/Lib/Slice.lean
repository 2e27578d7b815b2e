import Sbunix.Lib.Bytes

/-!
# Stretches of memory as lists

`slice m a n` is the list of the `n` bytes from `a` upwards. Buffers, strings and files are
stretches of memory; reading them as lists turns pointer arithmetic into `++`.

* `slice_add`, `slice_succ_right` — a stretch is cut anywhere, and grows at its end;
* `slice_congr`, `slice_write8_of_out` — what is written elsewhere does not matter;
* `slice_writeBytes_self` — a string that has been stored reads back.
-/

namespace ByteMem

variable {m m' : Mem} {a n k x : Nat} {b : UInt8}

/-- The `n` bytes from `a` upwards. -/
def slice (m : Mem) (a : Nat) : Nat → List UInt8
  | 0 => []
  | n + 1 => m a :: slice m (a + 1) n

@[simp] theorem slice_zero (m : Mem) (a : Nat) : slice m a 0 = [] := rfl

@[simp] theorem slice_length (m : Mem) (a n : Nat) : (slice m a n).length = n := by
  induction n generalizing a with
  | zero => rfl
  | succ n ih => rw [slice, List.length_cons, ih]

theorem slice_add (m : Mem) (a n k : Nat) :
    slice m a (n + k) = slice m a n ++ slice m (a + n) k := by
  induction n generalizing a with
  | zero => rw [Nat.zero_add, slice_zero, List.nil_append, Nat.add_zero]
  | succ n ih =>
    rw [show n + 1 + k = n + k + 1 by omega, slice, ih, slice, List.cons_append,
      show a + 1 + n = a + (n + 1) by omega]

theorem slice_succ_right (m : Mem) (a n : Nat) : slice m a (n + 1) = slice m a n ++ [m (a + n)] :=
  slice_add m a n 1

/-- A stretch depends on its own bytes only. -/
theorem slice_congr (h : ∀ x, a ≤ x → x < a + n → m' x = m x) : slice m' a n = slice m a n := by
  induction n generalizing a with
  | zero => rfl
  | succ n ih =>
    rw [slice, slice, h a (by omega) (by omega), ih fun x hx hx' => h x (by omega) (by omega)]

theorem write8_self (m : Mem) (a : Nat) (b : UInt8) : write8 m a b a = b := if_pos rfl

theorem write8_of_ne (h : x ≠ a) : write8 m a b x = m x := if_neg h

theorem slice_write8_of_out (h : x < a ∨ a + n ≤ x) : slice (write8 m x b) a n = slice m a n :=
  slice_congr fun _ hy hy' => write8_of_ne (by omega)

theorem mem_slice : b ∈ slice m a n ↔ ∃ i < n, m (a + i) = b := by
  induction n generalizing a with
  | zero => simp
  | succ n ih =>
    rw [slice, List.mem_cons, ih]
    constructor
    · rintro (rfl | ⟨i, hi, rfl⟩)
      · exact ⟨0, by omega, rfl⟩
      · exact ⟨i + 1, by omega, by rw [show a + (i + 1) = a + 1 + i by omega]⟩
    · rintro ⟨i, hi, rfl⟩
      cases i with
      | zero => exact Or.inl rfl
      | succ i => exact Or.inr ⟨i, by omega, by rw [show a + (i + 1) = a + 1 + i by omega]⟩

/-- A byte of a stretch. -/
theorem getElem?_slice (m : Mem) {a n i : Nat} (h : i < n) :
    (slice m a n)[i]? = some (m (a + i)) := by
  induction n generalizing a i with
  | zero => cases h
  | succ n ih =>
    rw [slice]
    cases i with
    | zero => rw [List.getElem?_cons_zero, Nat.add_zero]
    | succ i => rw [List.getElem?_cons_succ, ih (by omega), show a + 1 + i = a + (i + 1) by omega]

/-- A stored string reads back. -/
theorem slice_writeBytes_self (m : Mem) (a : Nat) (bs : List UInt8) :
    slice (writeBytes m a bs) a bs.length = bs := by
  induction bs generalizing m a with
  | nil => rfl
  | cons b bs ih =>
    rw [writeBytes, List.length_cons, slice, ih, writeBytes_of_out _ (Or.inl (Nat.lt_succ_self a)),
      write8_self]

end ByteMem
