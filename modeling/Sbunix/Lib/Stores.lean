import Mathlib.Algebra.Order.Ring.Int
import Mathlib.Data.List.Basic
import Mathlib.Tactic.Common

/-!
# Strings that are written through a pointer

An array is its cells together with the memory around it, so that a pointer may leave it. A store
outside stops a run (`Halt.outside`), and a run that needs more fuel than it has is left `pending`.

A pointer writes a string (`Writes`): the string is what lies in front of it. Behind it the array
holds what it held before, or what has been written there and is not the terminator.

* `Gives.bind`, `Gives.bind_outside` — runs one behind the other;
* `Writes.putAll`, `Writes.putAll_outside` — a string is appended, or it does not fit;
* `Writes.cut` — the pointer goes back;
* `findBack_eq`, `readString_gives` — the search for an element towards the front, and for the
  terminator.
-/

namespace Stores

variable {α β : Type}

/-- Why a run has no result. -/
inductive Halt
  /-- a store outside of an array -/
  | outside
  /-- the fuel is used up -/
  | pending
deriving DecidableEq

abbrev Run (α : Type) := Except Halt α

/-! ### Runs -/

section Gives

variable {x : Run α} {f : α → Run β} {P P' : α → Prop} {Q : β → Prop} {E F : Prop}

/-- The run has a result with `P` or, unless there is enough fuel, is pending. -/
def Gives (x : Run α) (enough : Prop) (P : α → Prop) : Prop :=
  (∃ a, x = .ok a ∧ P a) ∨ x = .error .pending ∧ ¬enough

theorem Gives.pure {a : α} (h : P a) : Gives (.ok a) E P := Or.inl ⟨a, rfl, h⟩

theorem Gives.exists_ok (h : Gives x E P) (hE : E) : ∃ a, x = .ok a ∧ P a := by
  rcases h with h | ⟨-, hnot⟩
  · exact h
  · exact absurd hE hnot

theorem Gives.of_ok (h : Gives x E P) {a : α} (ha : x = .ok a) : P a := by
  rcases h with ⟨b, hb, hP⟩ | ⟨hp, -⟩
  · obtain rfl : b = a := Except.ok.inj (hb.symm.trans ha)
    exact hP
  · rw [hp] at ha
    cases ha

theorem Gives.ne_outside (h : Gives x E P) : x ≠ .error .outside := by
  rcases h with ⟨a, rfl, -⟩ | ⟨rfl, -⟩
  · intro hc
    cases hc
  · intro hc
    cases hc

theorem Gives.mono (h : Gives x E P) (hE : F → E) (hP : ∀ a, P a → P' a) : Gives x F P' := by
  rcases h with ⟨a, ha, hPa⟩ | ⟨hp, hnot⟩
  · exact Or.inl ⟨a, ha, hP a hPa⟩
  · exact Or.inr ⟨hp, fun h => hnot (hE h)⟩

/-- **Two runs one behind the other.** -/
theorem Gives.bind (h : Gives x E P) (hE : F → E) (hf : ∀ a, P a → Gives (f a) F Q) :
    Gives (x >>= f) F Q := by
  rcases h with ⟨a, rfl, hPa⟩ | ⟨rfl, hnot⟩
  · exact hf a hPa
  · exact Or.inr ⟨rfl, fun h => hnot (hE h)⟩

/-- The second one leaves its array. -/
theorem Gives.bind_outside (h : Gives x E P) (hE : E) (hf : ∀ a, P a → f a = .error .outside) :
    x >>= f = .error .outside := by
  obtain ⟨a, rfl, hPa⟩ := h.exists_ok hE
  exact hf a hPa

/-- The first one does. -/
theorem bind_outside (h : x = .error .outside) (f : α → Run β) : x >>= f = .error .outside := by
  rw [h]
  rfl

end Gives

/-! ### Arrays and pointers -/

/-- A store to cell `i` of an array of `size` cells. -/
def store (size : Nat) (cells : Int → α) (i : Int) (x : α) : Run (Int → α) :=
  if 0 ≤ i ∧ i < size then .ok (Function.update cells i x) else .error .outside

/-- The cells and the pointer. -/
structure Cursor (α : Type) where
  cells : Int → α
  pos : Int

/-- `*p = x; p++`. -/
def Cursor.put (size : Nat) (s : Cursor α) (x : α) : Run (Cursor α) := do
  let cells ← store size s.cells s.pos x
  .ok ⟨cells, s.pos + 1⟩

def Cursor.putAll (size : Nat) (s : Cursor α) (xs : List α) : Run (Cursor α) :=
  xs.foldlM (Cursor.put size) s

/-- `while (*p != x) p--`. -/
def findBack [DecidableEq α] (cells : Int → α) (x : α) : Nat → Int → Run Int
  | 0, _ => .error .pending
  | n + 1, i => if cells i = x then .ok i else findBack cells x n (i - 1)

/-- The string from cell `i` on. -/
def readString [Zero α] [DecidableEq α] (cells : Int → α) : Nat → Int → Run (List α)
  | 0, _ => .error .pending
  | n + 1, i =>
    if cells i = 0 then .ok []
    else do
      let rest ← readString cells n (i + 1)
      .ok (cells i :: rest)

section Lemmas

variable {size : Nat} {base cells cells' : Int → α} {s s' : Cursor α} {text xs : List α} {x : α}
  {i z : Int} {n k : Nat}

theorem store_ok (h0 : 0 ≤ i) (h : i < size) :
    store size cells i x = .ok (Function.update cells i x) := if_pos ⟨h0, h⟩

theorem store_outside (h : i < 0 ∨ (size : Int) ≤ i) : store size cells i x = .error .outside :=
  if_neg (by omega)

theorem Cursor.put_ok (h0 : 0 ≤ s.pos) (h : s.pos < size) (x : α) :
    s.put size x = .ok ⟨Function.update s.cells s.pos x, s.pos + 1⟩ := by
  rw [Cursor.put, store_ok h0 h]
  rfl

theorem Cursor.put_outside (h : s.pos < 0 ∨ (size : Int) ≤ s.pos) (x : α) :
    s.put size x = .error .outside := bind_outside (store_outside h) _

theorem Cursor.putAll_cons (x : α) (xs : List α) :
    s.putAll size (x :: xs) = s.put size x >>= fun s => s.putAll size xs := List.foldlM_cons

theorem Cursor.putAll_singleton (x : α) : s.putAll size [x] = s.put size x := by
  rw [Cursor.putAll_cons]
  exact bind_pure _

theorem Cursor.putAll_append (xs ys : List α) : s.putAll size (xs ++ ys) =
    s.putAll size xs >>= fun s => s.putAll size ys := List.foldlM_append

/-- The cells that the pointer has not passed stay as they were. -/
theorem Cursor.putAll_other (hz : z < s.pos ∨ s.pos + xs.length ≤ z)
    (h : s.putAll size xs = .ok s') : s'.cells z = s.cells z := by
  induction xs generalizing s with
  | nil =>
    obtain rfl := Except.ok.inj h
    rfl
  | cons x xs ih =>
    rw [List.length_cons] at hz
    rw [Cursor.putAll_cons, Cursor.put, store] at h
    split at h
    · -- the store is at the pointer, which passes `z` only when it is in the range
      refine (ih ?_ h).trans (Function.update_of_ne (by omega) ..)
      show z < s.pos + 1 ∨ s.pos + 1 + xs.length ≤ z
      omega
    · cases h

/-- **The search towards the front.** -/
theorem findBack_eq [DecidableEq α] (hfound : cells (i - k) = x)
    (hbefore : ∀ j < k, cells (i - j) ≠ x) :
    findBack cells x n i = if k < n then .ok (i - k) else .error .pending := by
  induction k generalizing n i with
  | zero =>
    rw [Nat.cast_zero, sub_zero] at hfound ⊢
    cases n with
    | zero => rfl
    | succ n => rw [findBack, if_pos hfound, if_pos (Nat.succ_pos n)]
  | succ k ih =>
    cases n with
    | zero => rfl
    | succ n =>
      -- the element itself is not the one, and `k` steps are left from the cell in front of it
      have hi := hbefore 0 (Nat.succ_pos k)
      rw [Nat.cast_zero, sub_zero] at hi
      have hcast : i - 1 - (k : Int) = i - ((k + 1 : Nat) : Int) := by omega
      rw [findBack, if_neg hi, ih (by rw [hcast, hfound]) fun j hj => ?_, hcast]
      · simp only [Nat.add_lt_add_iff_right]
      · have := hbefore (j + 1) (Nat.succ_lt_succ hj)
        rwa [show i - ((j + 1 : Nat) : Int) = i - 1 - (j : Int) by omega] at this

theorem readString_safe [Zero α] [DecidableEq α] :
    Gives (readString cells n i) False fun _ => True := by
  induction n generalizing i with
  | zero => exact Or.inr ⟨rfl, not_false⟩
  | succ n ih =>
    rw [readString]
    split
    · exact Gives.pure trivial
    · exact ih.bind id fun rest _ => Gives.pure trivial

/-- There is a string where there is a terminator. -/
theorem readString_gives [Zero α] [DecidableEq α] (hend : cells (i + k) = 0) :
    Gives (readString cells n i) (k < n) fun _ => True := by
  induction k generalizing n i with
  | zero =>
    rw [Nat.cast_zero, add_zero] at hend
    cases n with
    | zero => exact Or.inr ⟨rfl, Nat.not_lt_zero 0⟩
    | succ n =>
      rw [readString, if_pos hend]
      exact Gives.pure trivial
  | succ k ih =>
    cases n with
    | zero => exact Or.inr ⟨rfl, Nat.not_lt_zero _⟩
    | succ n =>
      rw [readString]
      split
      · exact Gives.pure trivial
      · have hrest := ih (n := n) (i := i + 1) (by
          rw [← hend]
          congr 1
          omega)
        exact hrest.bind Nat.lt_of_succ_lt_succ fun rest _ => Gives.pure trivial

end Lemmas

/-! ### Strings -/

section Writes

variable [Zero α] {size : Nat} {base : Int → α} {s s' : Cursor α} {text xs : List α} {x : α}

/-- **The string in front of the pointer**, in an array of `size` cells. `base` is what the memory
held before. -/
structure Writes (size : Nat) (base : Int → α) (text : List α) (s : Cursor α) : Prop where
  pos : s.pos = text.length
  written : ∀ k (hk : k < text.length), s.cells k = text[k]
  noNul : 0 ∉ text
  outside : ∀ z : Int, z < 0 ∨ (size : Int) ≤ z → s.cells z = base z
  behind : ∀ z : Int, text.length ≤ z → s.cells z = base z ∨ s.cells z ≠ 0

/-- **An array with a string.** -/
structure Holds (size : Nat) (base : Int → α) (text : List α) (cells : Int → α) : Prop where
  written : ∀ k (hk : k < text.length), cells k = text[k]
  nul : cells text.length = 0
  outside : ∀ z : Int, z < 0 ∨ (size : Int) ≤ z → cells z = base z
  behind : ∀ z : Int, text.length < z → cells z = base z ∨ cells z ≠ 0

theorem Writes.start (size : Nat) (base : Int → α) : Writes size base [] ⟨base, 0⟩ :=
  ⟨rfl, fun _ hk => absurd hk (Nat.not_lt_zero _), List.not_mem_nil, fun _ _ => rfl,
    fun _ _ => Or.inl rfl⟩

theorem Writes.put (h : Writes size base text s) (hsize : text.length < size) (hx : x ≠ 0) :
    ∃ s', s.put size x = .ok s' ∧ Writes size base (text ++ [x]) s' := by
  have hpos := h.pos
  refine ⟨_, Cursor.put_ok (by omega) (by omega) x, ?_, fun k hk => ?_, ?_, fun z hz => ?_,
    fun z hz => ?_⟩
  · rw [List.length_append, List.length_singleton, hpos]
    rfl
  · rw [List.length_append, List.length_singleton] at hk
    -- the characters before stay, the last one is the new one
    rcases Nat.lt_or_ge k text.length with hlt | hge
    · rw [List.getElem_append_left hlt, ← h.written k hlt]
      exact Function.update_of_ne (by omega) ..
    · obtain rfl : k = text.length := by omega
      rw [hpos]
      simp
  · intro hmem
    rcases List.mem_append.mp hmem with hmem | hmem
    · exact h.noNul hmem
    · exact hx (List.mem_singleton.mp hmem).symm
  · rw [← h.outside z hz]
    exact Function.update_of_ne (by omega) ..
  · rw [List.length_append, List.length_singleton] at hz
    have hne : z ≠ s.pos := by omega
    simp only [Function.update_of_ne hne]
    exact h.behind z (by omega)

/-- **A string is appended.** -/
theorem Writes.putAll (h : Writes size base text s) (xs : List α)
    (hsize : text.length + xs.length ≤ size) (hxs : 0 ∉ xs) :
    ∃ s', s.putAll size xs = .ok s' ∧ Writes size base (text ++ xs) s' := by
  induction xs generalizing text s with
  | nil =>
    rw [List.append_nil]
    exact ⟨s, rfl, h⟩
  | cons x xs ih =>
    rw [List.length_cons] at hsize
    obtain ⟨s₁, hput, hs₁⟩ := h.put (by omega) (Ne.symm (List.ne_of_not_mem_cons hxs))
    obtain ⟨s₂, hputAll, hs₂⟩ := ih hs₁ (by rw [List.length_append, List.length_singleton]; omega)
      (List.not_mem_of_not_mem_cons hxs)
    rw [List.append_assoc, List.singleton_append] at hs₂
    refine ⟨s₂, ?_, hs₂⟩
    rw [Cursor.putAll_cons, hput]
    exact hputAll

/-- **It does not fit.** -/
theorem Writes.putAll_outside (h : Writes size base text s) (hle : text.length ≤ size)
    (hsize : size < text.length + xs.length) (hxs : 0 ∉ xs) :
    s.putAll size xs = .error .outside := by
  induction xs generalizing text s with
  | nil =>
    rw [List.length_nil] at hsize
    omega
  | cons x xs ih =>
    have hpos := h.pos
    rw [Cursor.putAll_cons]
    -- the element that leaves the array is this one or a later one
    rcases Nat.lt_or_ge text.length size with hlt | hge
    · obtain ⟨s₁, hput, hs₁⟩ := h.put hlt (Ne.symm (List.ne_of_not_mem_cons hxs))
      rw [List.length_cons] at hsize
      rw [hput]
      have hlen : (text ++ [x]).length = text.length + 1 := by simp
      exact ih hs₁ (by omega) (by omega) (List.not_mem_of_not_mem_cons hxs)
    · exact bind_outside (Cursor.put_outside (by omega) x) _

/-- **The pointer goes back** to the end of a prefix. -/
theorem Writes.cut {rest : List α} (h : Writes size base (text ++ rest) s) :
    Writes size base text ⟨s.cells, text.length⟩ where
  pos := rfl
  written k hk := by
    rw [h.written k (by rw [List.length_append]; omega), List.getElem_append_left hk]
  noNul hmem := h.noNul (List.mem_append_left rest hmem)
  outside := h.outside
  behind z hz := by
    rcases lt_or_ge z ((text ++ rest).length : Int) with hlt | hge
    · -- what is cut off has no terminator
      obtain ⟨k, rfl⟩ := Int.eq_ofNat_of_zero_le (show 0 ≤ z by omega)
      have hk : k < (text ++ rest).length := by exact_mod_cast hlt
      right
      rw [h.written k hk]
      exact fun hc => h.noNul (hc ▸ List.getElem_mem hk)
    · exact h.behind z hge

/-- The string is terminated. -/
theorem Writes.store_nul (h : Writes size base text s) (hsize : text.length < size) :
    ∃ cells, store size s.cells s.pos 0 = .ok cells ∧ Holds size base text cells := by
  have hpos := h.pos
  -- one cell changes, right behind the string
  have hother : ∀ z : Int, z ≠ s.pos → Function.update s.cells s.pos 0 z = s.cells z := fun z hz =>
    Function.update_of_ne hz ..
  refine ⟨_, store_ok (by omega) (by omega), fun k hk => ?_, ?_, fun z hz => ?_, fun z hz => ?_⟩
  · rw [hother k (by omega), h.written k hk]
  · rw [← hpos, Function.update_self]
  · rw [hother z (by omega), h.outside z hz]
  · rw [hother z (by omega)]
    exact h.behind z (by omega)

end Writes

end Stores
