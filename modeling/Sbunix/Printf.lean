import Mathlib.Algebra.Order.BigOperators.Group.List
import Mathlib.Data.Nat.Digits.Lemmas
import Sbunix.Screen

/-!
# Formats

What `kprintf` prints for a format and its arguments, against the standard rendering. A format is
a list of directives here, and each directive has its text in the format (`Directive.source`), its
standard rendering (`Directive.render`) and what `kprintf` prints for it (`Directive.printed`).

`%p`, `%c`, `%s`, `%%`, the literal characters, `%d` from zero on and `%x` below `2 ^ 31` are
rendered as usual. A negative `int` is one quotient, and so one character; `%ld` is unsigned and
leaves its `d` in the format.

* `digitChars_digitCount` — the two digit loops print the digits;
* `ops_printed` — a call prints what its directives print;
* `kprintf_renders` — which is the standard rendering unless one of the three cases occurs.
-/

namespace Sbunix

open ByteMem

/-! ### What it is for -/

/-- Digits up to 15, with upper-case letters. -/
def upperDigit (d : Nat) : UInt8 :=
  if d < 10 then UInt8.ofNat (0x30 + d) else UInt8.ofNat (0x37 + d)

/-- The numeral of `n`, without leading zeros. -/
def numeral (base n : Nat) : List UInt8 :=
  if n = 0 then [0x30] else (base.digits n).reverse.map upperDigit

/-- Decimal, with a minus sign for a negative number. -/
def decimal (x : Int) : List UInt8 :=
  if x < 0 then 0x2D :: numeral 10 x.natAbs else numeral 10 x.natAbs

/-- `0x` and the hexadecimal numeral. -/
def hexadecimal (x : Nat) : List UInt8 := [0x30, 0x78] ++ numeral 16 x

/-- A directive of a format, with its argument. -/
inductive Directive
  | literal (c : UInt8)
  | percent
  | char (c : UInt8)
  | string (text : List UInt8)
  | int (x : Int)
  | long (x : Int)
  | hex (x : Nat)
  | pointer (x : Nat)

namespace Directive

/-- The directive in the format. -/
def source : Directive → List UInt8
  | literal c => [c]
  | percent => [0x25, 0x25]
  | char _ => [0x25, 0x63]
  | string _ => [0x25, 0x73]
  | int _ => [0x25, 0x64]
  | long _ => [0x25, 0x6C, 0x64]
  | hex _ => [0x25, 0x78]
  | pointer _ => [0x25, 0x70]

/-- The standard rendering. -/
def render : Directive → List UInt8
  | literal c => [c]
  | percent => [0x25]
  | char c => [c]
  | string text => text
  | int x => decimal x
  | long x => decimal x
  | hex x => hexadecimal x
  | pointer x => hexadecimal x

/-- What the code does well. -/
def Supported : Directive → Prop
  | int x => 0 ≤ x
  | long _ => False
  | hex x => x < 2 ^ 31
  | _ => True

end Directive

/-- The printable characters. -/
def Printable (c : UInt8) : Prop := 0x20 ≤ c ∧ c ≤ 0x7E

/-- Characters are printable, a literal one is no `%`, and numbers are in the range of their
type. -/
def Directive.Ok : Directive → Prop
  | literal c => Printable c ∧ c ≠ 0x25
  | percent => True
  | char c => Printable c
  | string text => ∀ c ∈ text, Printable c
  | int x => -2 ^ 31 ≤ x ∧ x < 2 ^ 31
  | long x => -2 ^ 63 ≤ x ∧ x < 2 ^ 63
  | hex x => x < 2 ^ 32
  | pointer x => x < 2 ^ 64

/-- The C string `text` is at `a`. -/
def IsString (m : Mem) (a : Nat) : List UInt8 → Prop
  | [] => m a = 0
  | c :: text => m a = c ∧ IsString m (a + 1) text

instance decidableIsString (m : Mem) : (a : Nat) → (text : List UInt8) →
    Decidable (IsString m a text)
  | a, [] => inferInstanceAs (Decidable (m a = 0))
  | a, c :: text =>
    have := decidableIsString m (a + 1) text
    inferInstanceAs (Decidable (m a = c ∧ IsString m (a + 1) text))

/-- The word `w` is an argument for the directive. The upper half of the word of an `int` is not
determined, and a string is passed by its address. Strings are not longer than half of memory. -/
def Directive.Passed (m : Mem) (w : Nat) : Directive → Prop
  | literal _ => True
  | percent => True
  | char c => UInt8.ofNat (w % 256) = c
  | string text => IsString m w text ∧ text.length < 2 ^ 63
  | int x => intArg w = x
  | long x => (w : Int).bmod (2 ^ 64) = x
  | hex x => w % 2 ^ 32 = x
  | pointer x => w % 2 ^ 64 = x

/-- The arguments from the `i`-th on match the directives. -/
def ArgsMatch (m : Mem) (args : Nat → Nat) : Nat → List Directive → Prop
  | _, [] => True
  | i, .literal _ :: ds => ArgsMatch m args i ds
  | i, .percent :: ds => ArgsMatch m args i ds
  | i, d :: ds => d.Passed m (args i) ∧ ArgsMatch m args (i + 1) ds

/-- The call has the format and the arguments of the directives `ds`. -/
structure PrintCall.Prints (c : PrintCall) (ds : List Directive) : Prop where
  ok : ∀ d ∈ ds, d.Ok
  text : IsString c.mem c.fmt (ds.flatMap Directive.source)
  length : (ds.flatMap Directive.source).length < 2 ^ 63
  args : ArgsMatch c.mem c.args 0 ds

variable {m : Mem} {args : Nat → Nat} {ds : List Directive} {d : Directive} {base : Nat}

/-! ### The digit loops -/

/-- The first loop finds the power of the highest digit. -/
theorem digitCount_eq (hb : 2 ≤ base) (n q : Nat) {x : Nat} (hx : x < base ^ (n + 1)) :
    digitCount base n x q = q * base ^ Nat.log base x := by
  induction n generalizing x q with
  | zero =>
    have hlog : Nat.log base x = 0 := Nat.log_of_lt (by simpa using hx)
    rw [digitCount, hlog, pow_zero, Nat.mul_one]
  | succ n ih =>
    rw [digitCount]
    by_cases hlt : x < base
    · rw [if_neg (by omega), Nat.log_of_lt hlt, pow_zero, Nat.mul_one]
    · -- one turn of the loop is one step of the logarithm
      have hdiv : x / base < base ^ (n + 1) := Nat.div_lt_of_lt_mul (by rwa [← pow_succ'])
      have hlog : Nat.log base x = Nat.log base (x / base) + 1 :=
        Nat.log_of_one_lt_of_le (by omega) (by omega)
      rw [if_pos (by omega), ← Int.ofNat_tdiv, ih _ hdiv, hlog, pow_succ', Nat.mul_assoc]

/-- The second loop prints the digits from that power down. -/
theorem digitChars_eq (hb : 2 ≤ base) (n k : Nat) {y : Nat} (hk : k < n)
    (hy : y < base ^ (k + 1)) :
    digitChars base n y (base ^ k) =
      (List.range (k + 1)).reverse.map fun j => digitChar ((y / base ^ j % base : Nat) : Int) := by
  have hpos : ∀ k, 0 < base ^ k := fun k => Nat.pow_pos (by omega)
  -- on the power that is left; the quotient is the head digit and the remainder has the others
  induction k generalizing n y with
  | zero =>
    obtain ⟨n, rfl⟩ : ∃ n', n = n' + 1 := ⟨n - 1, by omega⟩
    have hy' : y < base := by simpa using hy
    have hend : digitChars base n ((y : Int).tmod 1) (1 / base) = [] := by
      rw [Nat.div_eq_of_lt (by omega : 1 < base)]
      cases n <;> rfl
    simp only [digitChars, pow_zero, Nat.cast_one, Nat.zero_lt_one, if_true, Int.tdiv_one, hend,
      Nat.div_one, Nat.mod_eq_of_lt hy', Nat.zero_add, List.range_one, List.reverse_singleton,
      List.map_cons, List.map_nil]
  | succ k ih =>
    obtain ⟨n, rfl⟩ : ∃ n', n = n' + 1 := ⟨n - 1, by omega⟩
    have hhead : y / base ^ (k + 1) % base = y / base ^ (k + 1) :=
      Nat.mod_eq_of_lt (Nat.div_lt_of_lt_mul (by rwa [← pow_succ]))
    -- the remainder has the same lower digits
    have htail : ∀ j ∈ (List.range (k + 1)).reverse,
        digitChar ((y % base ^ (k + 1) / base ^ j % base : Nat) : Int) =
          digitChar ((y / base ^ j % base : Nat) : Int) := by
      intro j hj
      have hjk : j < k + 1 := List.mem_range.mp (List.mem_reverse.mp hj)
      obtain ⟨l, hl⟩ : ∃ l, k + 1 = j + (l + 1) := ⟨k - j, by omega⟩
      rw [hl, pow_add, Nat.mod_mul_right_div_self, pow_succ, Nat.mod_mul_left_mod]
    rw [digitChars, if_pos (hpos _), ← Int.ofNat_tdiv, ← Int.ofNat_tmod, pow_succ,
      Nat.mul_div_cancel _ (by omega), ← pow_succ,
      ih n (by omega) (Nat.mod_lt _ (hpos _)), List.map_congr_left htail,
      List.range_succ (n := k + 1), List.reverse_append, List.reverse_singleton,
      List.singleton_append, List.map_cons, hhead]

/-- The digits of a number, one by one. -/
theorem digits_eq_map (hb : 2 ≤ base) {y : Nat} (hy : y ≠ 0) :
    base.digits y = (List.range (Nat.log base y + 1)).map fun j => y / base ^ j % base := by
  have hlen : (base.digits y).length = Nat.log base y + 1 := Nat.length_digits base y (by omega) hy
  refine List.ext_getElem (by rw [hlen, List.length_map, List.length_range]) fun j h h' => ?_
  rw [← List.getD_eq_getElem _ 0 h, Nat.getD_digits y j hb, List.getElem_map, List.getElem_range]

theorem digitChar_eq_upperDigit {d : Nat} (hd : d < 16) : digitChar d = upperDigit d := by
  have hall : ∀ d < 16, digitChar (d : Nat) = upperDigit d := by decide
  exact hall d hd

/-- **The digit loops print the numeral** of a number from zero on. -/
theorem digitChars_digitCount (hb : 2 ≤ base) (hb' : base ≤ 16) {y : Nat} (hy : y < 2 ^ 64) :
    digitChars base 64 y (digitCount base 64 y 1) = numeral base y := by
  have hpow : y < base ^ (64 : Nat) := lt_of_lt_of_le hy (Nat.pow_le_pow_left hb 64)
  have hpow' : base ^ 64 ≤ base ^ (64 + 1) := Nat.pow_le_pow_right (by omega) (by omega)
  have hlog : Nat.log base y < 64 := Nat.log_lt_of_lt_pow' (by omega) hpow
  rw [digitCount_eq hb 64 1 (by omega), Nat.one_mul,
    digitChars_eq hb 64 _ hlog (Nat.lt_pow_succ_log_self (by omega) y)]
  have hdigit : ∀ j ∈ (List.range (Nat.log base y + 1)).reverse,
      digitChar ((y / base ^ j % base : Nat) : Int) = upperDigit (y / base ^ j % base) := by
    intro j _
    have := Nat.mod_lt (y / base ^ j) (show 0 < base by omega)
    exact digitChar_eq_upperDigit (by omega)
  rw [List.map_congr_left hdigit, numeral]
  by_cases h0 : y = 0
  · -- zero has no digits, and is printed as one
    subst h0
    rw [if_pos rfl, Nat.log_zero_right]
    simp [upperDigit]
  · rw [if_neg h0, digits_eq_map hb h0, ← List.map_reverse, List.map_map]
    rfl

/-- A negative number is divided by one. -/
theorem digitChars_of_neg (hb : 2 ≤ base) {y : Int} (hy : y < 0) :
    digitChars base 64 y (digitCount base 64 y 1) = [digitChar y] := by
  -- the comparison of the first loop is signed: it stops at once
  have hcount : digitCount base 64 y 1 = 1 := by
    rw [digitCount, if_neg (by omega)]
  have hend : digitChars base 63 (y.tmod 1) (1 / base) = [] := by
    rw [Nat.div_eq_of_lt (by omega : 1 < base)]
    rfl
  rw [hcount, digitChars, if_pos Nat.zero_lt_one, Nat.cast_one, Int.tdiv_one, hend]

theorem numberOps_of_nonneg (hb : 2 ≤ base) (hb' : base ≤ 16) {y : Nat} (hy : y < 2 ^ 64) :
    numberOps base y = (numeral base y).map .put := by
  rw [numberOps, digitChars_digitCount hb hb' hy]

theorem numberOps_of_neg (hb : 2 ≤ base) {y : Int} (hy : y < 0) :
    numberOps base y = [.put (digitChar y)] := by
  rw [numberOps, digitChars_of_neg hb hy, List.map_singleton]

/-! ### What is printed -/

/-- What `kprintf` prints for a directive. -/
def Directive.printed : Directive → List UInt8
  | literal c => [c]
  | percent => [0x25]
  | char c => [c]
  | string text => text
  | int x => if 0 ≤ x then numeral 10 x.natAbs else [digitChar x]
  | long x => numeral 10 (x % 2 ^ 64).natAbs ++ [0x64]
  | hex x =>
    [0x30, 0x78] ++ if x < 2 ^ 31 then numeral 16 x else [digitChar ((x : Int) - 2 ^ 32)]
  | pointer x => hexadecimal x

/-- A printable character is none of those that move the cursor. -/
theorem Printable.ne {c : UInt8} (h : Printable c) :
    c ≠ 0 ∧ c ≠ 0x0A ∧ c ≠ 0x0D ∧ c ≠ 0x08 := by
  refine ⟨?_, ?_, ?_, ?_⟩ <;>
  · rintro rfl
    exact absurd h.1 (by decide)

theorem stringOps_eq {text : List UInt8} (hc : ∀ c ∈ text, Printable c) {n a : Nat}
    (h : IsString m a text) (hn : text.length < n) :
    stringOps m n a = some (text.map .put) := by
  induction text generalizing n a with
  | nil =>
    obtain ⟨n, rfl⟩ : ∃ n', n = n' + 1 := ⟨n - 1, by omega⟩
    have h0 : m a = 0 := h
    rw [stringOps, if_pos h0, List.map_nil]
  | cons c text ih =>
    obtain ⟨n, rfl⟩ : ∃ n', n = n' + 1 := ⟨n - 1, by omega⟩
    obtain ⟨h0, hA, hD, -⟩ := (hc c List.mem_cons_self).ne
    rw [List.length_cons] at hn
    rw [stringOps, h.1, if_neg h0, if_neg hA, if_neg hD,
      ih (fun c' hc' => hc c' (List.mem_cons_of_mem c hc')) h.2 (by omega)]
    rfl

theorem format_literal {c : UInt8} (hc : Printable c) (hp : c ≠ 0x25) {fmt : Nat}
    (h : m fmt = c) (n i : Nat) :
    format m args (n + 1) fmt i = (format m args n (fmt + 1) i).map (.put c :: ·) := by
  obtain ⟨h0, hA, hD, h8⟩ := hc.ne
  rw [format, h, if_neg h0, if_neg hA, if_neg hD, if_neg h8, if_pos hp]

theorem format_string {text : List UInt8} {fmt n i : Nat} (h : m fmt = 0x25)
    (h' : m (fmt + 1) = 0x73) (hc : ∀ c ∈ text, Printable c) (ht : IsString m (args i) text)
    (hn : text.length < n) :
    format m args (n + 1) fmt i =
      (format m args n (fmt + 2) (i + 1)).map (text.map .put ++ ·) := by
  rw [format]
  simp [h, h', stringOps_eq hc ht hn]

/-- The signed value of a word of `2 * k` values. -/
theorem bmod_of_mod {w x k : Nat} (h : w % (2 * k) = x) :
    (w : Int).bmod (2 * k) = if x < k then (x : Int) else (x : Int) - 2 * k := by
  have hx : (w : Int) % (2 * k : Nat) = x := by rw [← Int.natCast_mod, h]
  rw [Int.bmod_def, hx]
  split_ifs <;> omega

theorem intArg_eq {k : Nat} (hk : 2 ^ 32 = 2 * k) (w : Nat) :
    intArg w = (w : Int).bmod (2 * k) := by
  rw [← hk]
  rfl

theorem intArg_of_mod {w x : Nat} (h : w % 2 ^ 32 = x) :
    intArg w = if x < 2 ^ 31 then (x : Int) else (x : Int) - 2 ^ 32 := by
  obtain ⟨k, hk⟩ : ∃ k : Nat, k = 2 ^ 31 := ⟨_, rfl⟩
  have h2 : (2 : Nat) ^ 32 = 2 * k := by omega
  have hb := bmod_of_mod (w := w) (x := x) (k := k) (by rw [← h2]; exact h)
  rw [← intArg_eq h2] at hb
  rw [hb]
  split_ifs <;> omega

/-- `%ld` takes the word of a number for an unsigned one. -/
theorem long_of_bmod {w : Nat} {x : Int} (h : (w : Int).bmod (2 ^ 64) = x) :
    w % 2 ^ 64 = (x % 2 ^ 64).natAbs := by
  have hx : x % (2 ^ 64 : Nat) = (w : Int) % (2 ^ 64 : Nat) := by rw [← h, Int.bmod_emod]
  rw [← Int.natCast_mod] at hx
  rw [show (2 : Int) ^ 64 = ((2 ^ 64 : Nat) : Int) from rfl, hx]
  rfl

theorem Directive.source_length_pos (d : Directive) : 0 < d.source.length := by
  cases d <;> exact Nat.zero_lt_succ _

theorem printable_d : Printable 0x64 := by
  unfold Printable
  decide

/-- **What one call prints.** -/
theorem format_printed (hok : ∀ d ∈ ds, d.Ok) {fmt n i : Nat}
    (ht : IsString m fmt (ds.flatMap Directive.source)) (ha : ArgsMatch m args i ds)
    (hn : (ds.flatMap Directive.source).length + 2 ^ 63 ≤ n) :
    format m args n fmt i = some ((ds.flatMap Directive.printed).map .put) := by
  induction ds generalizing fmt n i with
  | nil =>
    obtain ⟨n, rfl⟩ : ∃ n', n = n' + 1 := ⟨n - 1, by omega⟩
    have h0 : m fmt = 0 := ht
    rw [format, if_pos h0]
    rfl
  | cons d ds ih =>
    obtain ⟨n, rfl⟩ : ∃ n', n = n' + 1 := ⟨n - 1, by omega⟩
    have hd := hok d List.mem_cons_self
    have hpos := d.source_length_pos
    rw [List.flatMap_cons, List.length_append] at hn
    rw [List.flatMap_cons] at ht
    rw [List.flatMap_cons, List.map_append]
    have hrest := fun {fmt n i} =>
      @ih (fun d' hd' => hok d' (List.mem_cons_of_mem d hd')) fmt n i
    have hn' : (ds.flatMap Directive.source).length + 2 ^ 63 ≤ n := by omega
    cases d with
    | literal c =>
      rw [format_literal hd.1 hd.2 ht.1, hrest ht.2 ha hn']
      rfl
    | percent =>
      rw [format]
      simp [ht.1, ht.2.1, hrest ht.2.2 ha hn', Directive.printed]
    | char c =>
      have hc : UInt8.ofNat (args i % 256) = c := ha.1
      rw [format]
      simp [ht.1, ht.2.1, hc, hrest ht.2.2 ha.2 hn', Directive.printed, (Printable.ne hd).2.1]
    | string text =>
      have hlen := ha.1.2
      rw [format_string ht.1 ht.2.1 hd ha.1.1 (by omega), hrest ht.2.2 ha.2 hn']
      rfl
    | int x =>
      have hx : intArg (args i) = x := ha.1
      have hnum : numberOps 10 x = (Directive.int x).printed.map .put := by
        rw [Directive.printed]
        by_cases h0 : 0 ≤ x
        · have hx' := hd.2
          obtain ⟨y, rfl⟩ := Int.eq_ofNat_of_zero_le h0
          rw [if_pos h0]
          exact numberOps_of_nonneg (by omega) (by omega) (by omega)
        · rw [if_neg h0]
          exact numberOps_of_neg (by omega) (by omega)
      rw [format]
      simp [ht.1, ht.2.1, hx, hnum, hrest ht.2.2 ha.2 hn']
    | long x =>
      have hx : args i % 2 ^ 64 = (x % 2 ^ 64).natAbs := long_of_bmod ha.1
      have hl : (Directive.long x).source.length = 3 := rfl
      -- the `d` is a literal character of the rest
      obtain ⟨n, rfl⟩ : ∃ n', n = n' + 1 := ⟨n - 1, by omega⟩
      have hrest' := hrest ht.2.2.2 ha.2 (show _ ≤ n by omega)
      have hliteral := @format_literal m args _ printable_d (by decide) _ ht.2.2.1 n (i + 1)
      have hnum : numberOps 10 (args i % 2 ^ 64 : Nat) = (numeral 10 (args i % 2 ^ 64)).map .put :=
        numberOps_of_nonneg (by omega) (by omega) (Nat.mod_lt _ (by norm_num))
      rw [hrest'] at hliteral
      rw [format, Directive.printed, ← hx]
      simp only [ht.1, ht.2.1, ht.2.2.1, hnum, hliteral]
      simp
    | hex x =>
      have hx := intArg_of_mod ha.1
      have hnum : numberOps 16 (intArg (args i)) =
          (if x < 2 ^ 31 then numeral 16 x else [digitChar ((x : Int) - 2 ^ 32)]).map .put := by
        have hlt : x < 2 ^ 32 := hd
        rw [hx]
        -- from `2 ^ 31` on the `int` is negative
        split_ifs with h
        · exact numberOps_of_nonneg (by omega) (by omega) (by omega)
        · exact numberOps_of_neg (by omega) (by omega)
      rw [format]
      simp only [ht.1, ht.2.1, hnum, hrest ht.2.2 ha.2 hn', Directive.printed]
      simp
    | pointer x =>
      have hx : args i % 2 ^ 64 = x := ha.1
      have hnum : numberOps 16 (args i % 2 ^ 64 : Nat) = (numeral 16 x).map .put := by
        rw [hx]
        exact numberOps_of_nonneg (by omega) (by omega) hd
      rw [format]
      simp only [ht.1, ht.2.1, hnum, hrest ht.2.2 ha.2 hn', Directive.printed, hexadecimal]
      simp

theorem ops_printed {c : PrintCall} (h : c.Prints ds) :
    c.ops = some ((ds.flatMap Directive.printed).map .put) := by
  have hlen := h.length
  exact format_printed h.ok h.text h.args (by omega)

/-! ### What is printed against what should be -/

theorem upperDigit_ne_d {n : Nat} (hn : n < 16) : upperDigit n ≠ 0x64 := by
  have hall : ∀ n < 16, upperDigit n ≠ 0x64 := by decide
  exact hall n hn

/-- No numeral has a `d`. -/
theorem count_numeral (hb : 2 ≤ base) (hb' : base ≤ 16) (n : Nat) :
    (numeral base n).count 0x64 = 0 := by
  rw [List.count_eq_zero]
  intro h
  rw [numeral] at h
  split_ifs at h
  · exact absurd (List.mem_singleton.mp h) (by decide)
  · obtain ⟨e, he, hed⟩ := List.mem_map.mp h
    have := Nat.digits_lt_base (by omega) (List.mem_reverse.mp he)
    exact upperDigit_ne_d (by omega) hed

theorem count_decimal (x : Int) : (decimal x).count 0x64 = 0 := by
  rw [decimal]
  split_ifs
  · rw [List.count_cons_of_ne (by decide), count_numeral (by omega) (by omega)]
  · exact count_numeral (by omega) (by omega) _

theorem count_hexadecimal (x : Nat) : (hexadecimal x).count 0x64 = 0 := by
  rw [hexadecimal, List.count_append, count_numeral (by omega) (by omega)]
  decide

theorem length_numeral_pos (base n : Nat) : 0 < (numeral base n).length := by
  rw [numeral]
  split_ifs with h
  · exact Nat.zero_lt_one
  · rw [List.length_map, List.length_reverse, List.length_pos_iff]
    exact Nat.digits_ne_nil_iff_ne_zero.mpr h

theorem length_hex {x : Nat} (h : 2 ^ 31 ≤ x) : 1 < (numeral 16 x).length := by
  have hlog : 1 ≤ Nat.log 16 x := Nat.log_pos (by omega) (by omega)
  rw [numeral, if_neg (by omega), List.length_map, List.length_reverse,
    Nat.length_digits 16 x (by omega) (by omega)]
  omega

/-- The code prints no fewer `d`s than it should, and more for `%ld`. -/
theorem Directive.count_render_le (d : Directive) :
    d.render.count 0x64 ≤ d.printed.count 0x64 := by
  cases d with
  | int x =>
    rw [Directive.render, count_decimal]
    exact Nat.zero_le _
  | long x =>
    rw [Directive.render, count_decimal]
    exact Nat.zero_le _
  | hex x =>
    rw [Directive.render, count_hexadecimal]
    exact Nat.zero_le _
  | _ => exact Nat.le_refl _

theorem count_long_lt (x : Int) :
    (Directive.long x).render.count 0x64 < (Directive.long x).printed.count 0x64 := by
  rw [Directive.render, count_decimal, Directive.printed, List.count_append]
  simp

/-- Apart from `%ld` the code prints no more than it should, and less where a number is not
supported. -/
theorem Directive.printed_short (d : Directive) (hd : ∀ x, d ≠ long x) :
    d.printed.length ≤ d.render.length ∧
      (¬ d.Supported → d.printed.length < d.render.length) := by
  cases d with
  | int x =>
    rw [Directive.render, Directive.printed, decimal]
    by_cases h : 0 ≤ x
    · rw [if_pos h, if_neg (by omega)]
      exact ⟨Nat.le_refl _, fun hs => absurd h hs⟩
    · have := length_numeral_pos 10 x.natAbs
      rw [if_neg h, if_pos (by omega), List.length_singleton, List.length_cons]
      exact ⟨by omega, fun _ => by omega⟩
  | long x => exact absurd rfl (hd x)
  | hex x =>
    rw [Directive.render, Directive.printed, hexadecimal, List.length_append, List.length_append]
    by_cases h : x < 2 ^ 31
    · rw [if_pos h]
      exact ⟨Nat.le_refl _, fun hs => absurd h hs⟩
    · have := length_hex (Nat.le_of_not_lt h)
      rw [if_neg h, List.length_singleton]
      exact ⟨by omega, fun _ => by omega⟩
  | _ => exact ⟨Nat.le_refl _, fun hs => absurd trivial hs⟩

theorem Directive.printed_eq_render (h : d.Supported) : d.printed = d.render := by
  cases d with
  | int x =>
    have hx : 0 ≤ x := h
    rw [Directive.render, Directive.printed, decimal, if_pos hx, if_neg (by omega)]
  | long x => exact h.elim
  | hex x =>
    have hx : x < 2 ^ 31 := h
    rw [Directive.render, Directive.printed, hexadecimal, if_pos hx]
  | _ => rfl

/-- Two sums are equal only where their terms are. -/
theorem eq_of_sum_eq {α : Type*} {f g : α → Nat} {l : List α} (hle : ∀ a ∈ l, f a ≤ g a)
    (h : (l.map f).sum = (l.map g).sum) : ∀ a ∈ l, f a = g a := by
  intro a ha
  by_contra hne
  have hlt := List.sum_lt_sum f g hle ⟨a, ha, lt_of_le_of_ne (hle a ha) hne⟩
  exact absurd h (Nat.ne_of_lt hlt)

/-- **The rendering is right where every directive is supported**, and only there: the `d`s that
`%ld` leaves in the format cannot be made up for, and without them every unsupported number makes
the text shorter. -/
theorem printed_eq_render_iff :
    ds.flatMap Directive.printed = ds.flatMap Directive.render ↔ ∀ d ∈ ds, d.Supported := by
  constructor
  · intro h
    -- first the `d`s are counted, which excludes `%ld`
    have hcount := congrArg (List.count 0x64) h
    rw [List.count_flatMap, List.count_flatMap] at hcount
    have hlong : ∀ d ∈ ds, ∀ x, d ≠ Directive.long x := by
      rintro d hd x rfl
      have := eq_of_sum_eq (fun d _ => Directive.count_render_le d) hcount.symm _ hd
      exact absurd this (Nat.ne_of_lt (count_long_lt x))
    -- and then the characters
    have hlength := congrArg List.length h
    rw [List.length_flatMap, List.length_flatMap] at hlength
    intro d hd
    by_contra hs
    have := eq_of_sum_eq (fun d hd => (d.printed_short (hlong d hd)).1) hlength d hd
    exact absurd this (Nat.ne_of_lt ((d.printed_short (hlong d hd)).2 hs))
  · intro h
    induction ds with
    | nil => rfl
    | cons d ds ih =>
      rw [List.flatMap_cons, List.flatMap_cons,
        Directive.printed_eq_render (h d List.mem_cons_self),
        ih fun d' hd' => h d' (List.mem_cons_of_mem d hd')]

/-- **`kprintf` renders like `printf`** exactly where no `%ld` occurs, every `%d` is from zero on
and every `%x` is below `2 ^ 31`. -/
theorem kprintf_renders {c : PrintCall} (h : c.Prints ds) :
    c.ops = some ((ds.flatMap Directive.render).map .put) ↔ ∀ d ∈ ds, d.Supported := by
  rw [ops_printed h, Option.some_inj, ← printed_eq_render_iff]
  constructor
  · intro he
    exact List.map_injective_iff.mpr (fun _ _ => CharOp.put.inj) he
  · intro he
    rw [he]

/-- The call `kprintf("%d!%p", 2026, 0xB8000)`. -/
def pointerCall : PrintCall where
  mem := fun x => ([0x25, 0x64, 0x21, 0x25, 0x70] : List UInt8).getD (x - 0x1000) 0
  fmt := 0x1000
  args := fun i => if i = 0 then 2026 else 0xB8000

theorem pointerCall_prints :
    pointerCall.Prints [.int 2026, .literal 0x21, .pointer 0xB8000] where
  ok d hd := by
    simp only [List.mem_cons, List.not_mem_nil, or_false] at hd
    rcases hd with rfl | rfl | rfl
    · exact ⟨by norm_num, by norm_num⟩
    · exact ⟨by unfold Printable; decide, by decide⟩
    · exact show 0xB8000 < 2 ^ 64 by norm_num
  text := by decide
  length := by decide
  args := by
    have hint : intArg 2026 = 2026 := by
      rw [intArg_of_mod (x := 2026) (by norm_num)]
      norm_num
    exact ⟨hint, show 0xB8000 % 2 ^ 64 = 0xB8000 by norm_num, trivial⟩

theorem kprintf_renders_pointerCall :
    pointerCall.ops =
      some (([.int 2026, .literal 0x21, .pointer 0xB8000].flatMap Directive.render).map .put) := by
  refine (kprintf_renders pointerCall_prints).mpr fun d hd => ?_
  simp only [List.mem_cons, List.not_mem_nil, or_false] at hd
  rcases hd with rfl | rfl | rfl
  · exact show (0 : Int) ≤ 2026 by norm_num
  · exact trivial
  · exact trivial

/-- The call `kprintf("%d", -7)`. -/
def negativeCall : PrintCall where
  mem := fun x => ([0x25, 0x64] : List UInt8).getD (x - 0x1000) 0
  fmt := 0x1000
  args := fun _ => 0xFFFFFFF9

theorem negativeCall_prints : negativeCall.Prints [.int (-7)] := by
  have hint : intArg 0xFFFFFFF9 = -7 := by
    rw [intArg_of_mod (x := 0xFFFFFFF9) (by norm_num)]
    norm_num
  refine ⟨fun d hd => ?_, by decide, by decide, hint, trivial⟩
  rw [List.mem_singleton.mp hd]
  exact ⟨by norm_num, by norm_num⟩

/-- It prints the single character `)`. -/
theorem kprintf_misprints_negative :
    negativeCall.Prints [.int (-7)] ∧
      [Directive.int (-7)].flatMap Directive.render = [0x2D, 0x37] ∧
      negativeCall.ops = some [.put 0x29] := by
  refine ⟨negativeCall_prints, ?_, ?_⟩
  · simp [Directive.render, decimal, numeral, upperDigit]
  · rw [ops_printed negativeCall_prints]
    rfl

end Sbunix
