import Mathlib.Data.Nat.Bitwise
import Mathlib.Logic.Function.Basic

/-!
# Sets of numbers in the bits of words

The number `n` is in the set when the bit `n % b` of the word `n / b` is set.

* `and_bit_ne_zero` — the test of a bit.
* `testBit_mark` — setting the bit of a number adds the number to the set.
* `toNat_and_not_mask` — a word whose low bits are cleared.
-/

namespace Bitmap

theorem and_bit_ne_zero (w k : ℕ) : w &&& 1 <<< k ≠ 0 ↔ w.testBit k := by
  rw [Nat.one_shiftLeft, Nat.and_two_pow]
  cases w.testBit k <;> simp

/-- **The bit of one number is set and no other bit changes.** -/
theorem testBit_mark {b : ℕ} (words : ℕ → ℕ) (m z : ℕ) :
    (Function.update words (m / b) (words (m / b) ||| 1 <<< (m % b)) (z / b)).testBit (z % b) ↔
      (words (z / b)).testBit (z % b) ∨ z = m := by
  rcases eq_or_ne (z / b) (m / b) with heq | hne
  · have hsame : m % b = z % b ↔ z = m := by
      constructor
      · intro hmod
        rw [← Nat.div_add_mod z b, ← Nat.div_add_mod m b, heq, hmod]
      · rintro rfl
        rfl
    rw [heq, Function.update_self, Nat.testBit_or, Bool.or_eq_true, Nat.one_shiftLeft,
      Nat.testBit_two_pow, decide_eq_true_iff, hsame]
  · rw [Function.update_of_ne hne, or_iff_left]
    rintro rfl
    exact hne rfl

/-- **Clearing the low bits of a word leaves a multiple.** -/
theorem toNat_and_not_mask {b k : ℕ} (x : BitVec b) {m : BitVec b} (hm : m.toNat = 2 ^ k - 1) :
    (x &&& ~~~m).toNat = x.toNat / 2 ^ k * 2 ^ k := by
  have hmask : ∀ i, m.getLsbD i = decide (i < k) := by
    intro i
    rw [← BitVec.testBit_toNat, hm, Nat.testBit_two_pow_sub_one]
  rw [← Nat.shiftRight_eq_div_pow, ← Nat.shiftLeft_eq]
  refine Nat.eq_of_testBit_eq fun i => ?_
  rw [BitVec.testBit_toNat, BitVec.getLsbD_and, BitVec.getLsbD_not, hmask, Nat.testBit_shiftLeft,
    Nat.testBit_shiftRight, BitVec.testBit_toNat]
  by_cases hk : k ≤ i
  · rw [Nat.add_sub_cancel' hk]
    by_cases hi : i < b
    · simp [hk, hi]
    · simp [BitVec.getLsbD_of_ge x i (Nat.not_lt.mp hi)]
  · simp [hk, Nat.not_le.mp hk]

end Bitmap
