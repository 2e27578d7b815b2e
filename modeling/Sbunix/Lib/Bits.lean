import Mathlib.Data.Nat.Bitwise
import Mathlib.Tactic.Common

/-!
# Masks on natural numbers

Machine words are natural numbers below `2 ^ 64`; the masks that page tables use are read off
arithmetically: keeping the high bits is rounding down (`and_highMask`), or-ing flags into a
word whose low bits are zero is adding them (`or_low`), and testing the lowest bit is parity.
-/

namespace Bits

/-- Keeping the bits from `k` on rounds down to a multiple of `2 ^ k`. -/
theorem and_highMask {x k n : Nat} (hx : x < 2 ^ (n + k)) :
    x &&& ((2 ^ n - 1) <<< k) = x / 2 ^ k * 2 ^ k := by
  rw [← Nat.shiftRight_eq_div_pow, ← Nat.shiftLeft_eq]
  refine Nat.eq_of_testBit_eq fun i => ?_
  rw [Nat.testBit_and, Nat.testBit_shiftLeft, Nat.testBit_shiftLeft, Nat.testBit_shiftRight,
    Nat.testBit_two_pow_sub_one]
  by_cases hk : k ≤ i
  · by_cases hn : i - k < n
    · simp [hk, hn, Nat.add_sub_cancel' hk]
    · have hxi : x.testBit i = false :=
        Nat.testBit_lt_two_pow (lt_of_lt_of_le hx (Nat.pow_le_pow_right (by decide) (by omega)))
      simp [hk, hn, Nat.add_sub_cancel' hk, hxi]
  · simp [hk]

/-- Flags below `2 ^ k` are added to a multiple of `2 ^ k`. -/
theorem or_low {c k b : Nat} (hb : b < 2 ^ k) : c * 2 ^ k ||| b = c * 2 ^ k + b := by
  rw [← Nat.shiftLeft_eq, Nat.shiftLeft_add_eq_or_of_lt hb]

theorem and_lowMask (x k : Nat) : x &&& (2 ^ k - 1) = x % 2 ^ k :=
  Nat.and_two_pow_sub_one_eq_mod x k

/-- Masking works separately on the bits above and below `k`. -/
theorem and_split {a b k x y : Nat} (hx : x < 2 ^ k) (hy : y < 2 ^ k) :
    (a * 2 ^ k + x) &&& (b * 2 ^ k + y) = (a &&& b) * 2 ^ k + (x &&& y) := by
  have hxy : x &&& y < 2 ^ k := lt_of_le_of_lt Nat.and_le_left hx
  rw [← or_low hx, ← or_low hy, ← or_low hxy]
  refine Nat.eq_of_testBit_eq fun i => ?_
  simp only [Nat.testBit_and, Nat.testBit_or, ← Nat.shiftLeft_eq, Nat.testBit_shiftLeft]
  by_cases hk : k ≤ i
  · have hle : 2 ^ k ≤ 2 ^ i := Nat.pow_le_pow_right (by decide) hk
    simp [hk, Nat.testBit_lt_two_pow (lt_of_lt_of_le hx hle),
      Nat.testBit_lt_two_pow (lt_of_lt_of_le hy hle)]
  · simp [hk]

/-- Or-ing works separately on the bits above and below `k`. -/
theorem or_split {a b k x y : Nat} (hx : x < 2 ^ k) (hy : y < 2 ^ k) :
    (a * 2 ^ k + x) ||| (b * 2 ^ k + y) = (a ||| b) * 2 ^ k + (x ||| y) := by
  have hxy : x ||| y < 2 ^ k := Nat.or_lt_two_pow hx hy
  rw [← or_low hx, ← or_low hy, ← or_low hxy]
  refine Nat.eq_of_testBit_eq fun i => ?_
  simp only [Nat.testBit_or, ← Nat.shiftLeft_eq, Nat.testBit_shiftLeft]
  by_cases hk : k ≤ i
  · have hle : 2 ^ k ≤ 2 ^ i := Nat.pow_le_pow_right (by decide) hk
    simp [hk, Nat.testBit_lt_two_pow (lt_of_lt_of_le hx hle),
      Nat.testBit_lt_two_pow (lt_of_lt_of_le hy hle)]
  · simp [hk]

end Bits
