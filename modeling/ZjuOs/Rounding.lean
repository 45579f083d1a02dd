import Mathlib.Algebra.Group.Nat.Defs
import Mathlib.Data.Nat.Bitwise
import Mathlib.Data.Nat.Log
import Mathlib.Tactic.Common

/-!
# Filling a word downwards from its leading bit

`x ||| x >>> w` doubles the run of ones below the leading bit. Repeating it with `w = 1, 2, 4, …` turns
`x` into `2 ^ (e + 1) - 1`, where `e` is the position of the leading bit.
-/
namespace Rounding

/-- The leading bit of `x` is `e`, and the `w` bits from it downwards are ones. -/
structure Filled (e w x : Nat) : Prop where
  above : ∀ i, e < i → x.testBit i = false
  below : ∀ i, i ≤ e → e < i + w → x.testBit i = true

theorem filled_log2 {x : Nat} (hx : x ≠ 0) : Filled x.log2 1 x := by
  constructor
  · intro i hi
    exact Nat.testBit_lt_two_pow (Nat.lt_of_lt_of_le Nat.lt_log2_self (Nat.pow_le_pow_right (by omega) hi))
  · intro i hi hlt
    obtain rfl : i = x.log2 := by omega
    exact Nat.testBit_log2 hx

theorem Filled.smear {e w x : Nat} (h : Filled e w x) : Filled e (2 * w) (x ||| x >>> w) := by
  constructor
  · intro i hi
    simp only [Nat.testBit_or, Nat.testBit_shiftRight, h.above i hi, h.above (w + i) (by omega),
      Bool.or_false]
  · intro i hi hlt
    simp only [Nat.testBit_or, Nat.testBit_shiftRight, Bool.or_eq_true]
    by_cases hw : e < i + w
    · exact .inl (h.below i hi hw)
    · exact .inr (h.below (w + i) (by omega) (by omega))

theorem Filled.eq {e w x : Nat} (h : Filled e w x) (hw : e < w) : x = 2 ^ (e + 1) - 1 := by
  apply Nat.eq_of_testBit_eq
  intro i
  rw [Nat.testBit_two_pow_sub_one]
  by_cases hi : i ≤ e
  · rw [h.below i hi (by omega), decide_eq_true (by omega)]
  · rw [h.above i (by omega), decide_eq_false (by omega)]

theorem two_pow_log2_succ {n : Nat} (hn : 2 ≤ n) : 2 ^ ((n - 1).log2 + 1) = 2 ^ Nat.clog 2 n := by
  have hne : n - 1 ≠ 0 := by omega
  have hlo : 2 ^ (n - 1).log2 ≤ n - 1 := Nat.log2_self_le hne
  have hhi : n - 1 < 2 ^ ((n - 1).log2 + 1) := Nat.lt_log2_self
  congr 1
  apply le_antisymm
  · exact (Nat.lt_clog_iff_pow_lt (by omega)).mpr (by omega)
  · exact Nat.clog_le_of_le_pow (by omega)

theorem clog_two_pow_of_and_eq_zero {n : Nat} (hn : n ≠ 0) (h : n &&& (n - 1) = 0) :
    n = 2 ^ Nat.clog 2 n := by
  obtain ⟨k, rfl⟩ := (Nat.and_sub_one_eq_zero_iff_isPowerOfTwo hn).mp h
  rw [Nat.clog_pow 2 k (by omega)]

end Rounding
