import Mathlib.Data.Rat.Floor
import Mathlib.Order.Monotone.Basic
import Mathlib.Tactic.Ring
import Mathlib.Tactic.FieldSimp
import Mathlib.Tactic.SplitIfs

/-!
# Doubles as bits

The rational number that the bits of a finite binary64 denote.  Every magnitude is a multiple of the
least positive one, `2 ^ -1074`.

* `units` — the magnitude as such a multiple.
* `units_mantissa` — a significand that carries into the exponent is still the right one.
* `units_strictMono` — larger bits are larger magnitudes.
* `value`, `value_inj` — the number; with its sign it determines the bits.
-/

namespace Binary64

/-- The magnitude in units of `2 ^ -1074`, of bits without their sign. -/
def units (n : ℕ) : ℕ :=
  if n / 2 ^ 52 = 0 then n % 2 ^ 52 else (2 ^ 52 + n % 2 ^ 52) * 2 ^ (n / 2 ^ 52 - 1)

variable {e m n : ℕ} {b c : BitVec 64}

/-- Subnormal magnitudes, and the least normal one. -/
theorem units_small (h : n ≤ 2 ^ 52) : units n = n := by
  rw [units]
  rcases Nat.lt_or_ge n (2 ^ 52) with hlt | hge
  · rw [if_pos (Nat.div_eq_of_lt hlt), Nat.mod_eq_of_lt hlt]
  · obtain rfl : n = 2 ^ 52 := le_antisymm h hge
    rfl

/-- A significand of 53 bits, or one more than the largest. -/
theorem units_mantissa (hm : 2 ^ 52 ≤ m) (hm' : m ≤ 2 ^ 53) :
    units (e * 2 ^ 52 + m) = m * 2 ^ e := by
  rw [units]
  rcases Nat.lt_or_ge m (2 ^ 53) with hlt | hge
  · have hdiv : (e * 2 ^ 52 + m) / 2 ^ 52 = e + 1 := by omega
    have hmod : (e * 2 ^ 52 + m) % 2 ^ 52 = m - 2 ^ 52 := by omega
    rw [hdiv, hmod, if_neg (Nat.succ_ne_zero e), Nat.add_sub_cancel, Nat.add_sub_cancel' hm]
  · obtain rfl : m = 2 ^ 53 := le_antisymm hm' hge
    have hdiv : (e * 2 ^ 52 + 2 ^ 53) / 2 ^ 52 = e + 2 := by omega
    have hmod : (e * 2 ^ 52 + 2 ^ 53) % 2 ^ 52 = 0 := by omega
    rw [hdiv, hmod, if_neg (by omega), Nat.add_zero, show e + 2 - 1 = e + 1 from rfl,
      Nat.pow_succ 2 e]
    ring

/-- The bits of one. -/
theorem units_one : units (1022 * 2 ^ 52 + 2 ^ 52) = 2 ^ 1074 := by
  have hexp : 1074 = 52 + 1022 := rfl
  rw [units_mantissa le_rfl (by norm_num), hexp, pow_add]

/-- Bits of a normal number are its exponent and its significand. -/
theorem exists_mantissa (h : 2 ^ 52 ≤ n) :
    ∃ e m, n = e * 2 ^ 52 + m ∧ n / 2 ^ 52 = e + 1 ∧ 2 ^ 52 ≤ m ∧ m < 2 ^ 53 :=
  ⟨n / 2 ^ 52 - 1, 2 ^ 52 + n % 2 ^ 52, by omega, by omega, by omega, by omega⟩

theorem units_strictMono : StrictMono units := by
  refine strictMono_nat_of_lt_succ fun n => ?_
  rcases Nat.lt_or_ge n (2 ^ 52) with hlt | hge
  · rw [units_small hlt.le, units_small hlt]
    exact Nat.lt_succ_self n
  · obtain ⟨e, m, rfl, -, hm, hm'⟩ := exists_mantissa hge
    rw [units_mantissa hm hm'.le, Nat.add_assoc, units_mantissa (by omega) hm']
    exact Nat.mul_lt_mul_of_pos_right (Nat.lt_succ_self m) (Nat.two_pow_pos e)

/-! ## Numbers -/

/-- The bits without the sign. -/
def magnitude (b : BitVec 64) : ℕ := b.toNat % 2 ^ 63

/-- Neither an infinity nor a NaN. -/
def Finite (b : BitVec 64) : Prop := magnitude b / 2 ^ 52 < 2047

/-- The number that finite bits denote. -/
def value (b : BitVec 64) : ℚ :=
  if b.msb then -((units (magnitude b) : ℚ) / 2 ^ 1074) else (units (magnitude b) : ℚ) / 2 ^ 1074

theorem magnitude_lt (b : BitVec 64) : magnitude b < 2 ^ 63 := Nat.mod_lt _ (by norm_num)

theorem toNat_eq (b : BitVec 64) : b.toNat = b.msb.toNat * 2 ^ 63 + magnitude b := by
  rw [magnitude, BitVec.msb_eq_decide]
  have hlt := b.isLt
  by_cases h : 2 ^ (64 - 1) ≤ b.toNat
  · rw [decide_eq_true h, Bool.toNat_true]
    omega
  · rw [decide_eq_false h, Bool.toNat_false]
    omega

/-- Bits with one sign and one magnitude. -/
theorem eq_of_magnitude (hmsb : b.msb = c.msb) (h : magnitude b = magnitude c) : b = c := by
  refine BitVec.eq_of_toNat_eq ?_
  rw [toNat_eq b, toNat_eq c, hmsb, h]

/-- **The number and the sign determine the bits.** -/
theorem value_inj (hmsb : b.msb = c.msb) (h : value b = value c) : b = c := by
  refine eq_of_magnitude hmsb (units_strictMono.injective ?_)
  rw [value, value, hmsb] at h
  have hpos : (2 : ℚ) ^ 1074 ≠ 0 := pow_ne_zero _ two_ne_zero
  split_ifs at h
  · exact_mod_cast (div_left_inj' hpos).mp (neg_injective h)
  · exact_mod_cast (div_left_inj' hpos).mp h

end Binary64
