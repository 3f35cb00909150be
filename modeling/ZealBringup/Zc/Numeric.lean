import Mathlib.Tactic.IntervalCases
import Mathlib.Tactic.Linarith
import ZealBringup.Lib.Binary64

/-!
# Numbers by their bits

`host_ceil` and `host_dist_sqr_i64` of `runtime.c`.

* `hostCeil`, `hostDistSqrI64` — the functions.
* `CeilExact` — the result has the bits of the least integer that is not below the number.
* `SquaresFit` — when the guard before the sum of the squares does not wrap, or its wrap is harmless.
* `numeric_exact_iff` — the first function is exact, and the second one is under this condition.
-/

namespace ZealBringup.Zc

open Binary64

/-! ## The functions -/

def hostCeil (bits : BitVec 64) : BitVec 64 :=
  let exp := (bits >>> 52 &&& 0x7ff).toNat
  let magnitude := bits &&& 0x7fffffffffffffff
  if exp ≥ 1023 + 52 ∨ magnitude = 0 then bits
  else if exp < 1023 then
    if bits >>> 63 ≠ 0 then 0x8000000000000000 else 0x3ff0000000000000
  else
    let mask := (1#64 <<< (1023 + 52 - exp)) - 1
    if bits &&& mask = 0 then bits
    else
      let bits := if bits >>> 63 = 0 then bits + mask else bits
      bits &&& ~~~mask

/-- `INT64_MAX`. -/
def intMax : ℤ := 2 ^ 63 - 1

/-- Whether `__builtin_sub_overflow` reports a difference. -/
def overflows (d : ℤ) : Bool := !(-2 ^ 63 ≤ d && d < 2 ^ 63)

/-- `d < 0 ? (uint64_t)(-(d + 1)) + 1 : (uint64_t)d`. -/
def absWord (d : ℤ) : ℕ := if d < 0 then (-(d + 1)).toNat + 1 else d.toNat

/-- `(int64_t)n` of a word. -/
def signedWord (n : ℕ) : ℤ := if n < 2 ^ 63 then n else (n : ℤ) - 2 ^ 64

def hostDistSqrI64 (x1 y1 x2 y2 : ℤ) : ℤ :=
  let dx := x1 - x2
  let dy := y1 - y2
  if overflows dx || overflows dy then intMax
  else
    let ax := absWord dx
    let ay := absWord dy
    if ax ≠ 0 ∧ ax > 2 ^ 32 - 1 then intMax
    else if ay ≠ 0 ∧ ay > 2 ^ 32 - 1 then intMax
    else
      let xx := ax * ax % 2 ^ 64
      let yy := ay * ay % 2 ^ 64
      -- the maximum is converted to an unsigned word, and so is the difference
      if xx > (2 ^ 63 - 1 + 2 ^ 64 - yy) % 2 ^ 64 then intMax
      else signedWord ((xx + yy) % 2 ^ 64)

/-! ## Bits below the point -/

variable {b : BitVec 64} {n k e m : ℕ}

theorem exp_toNat (b : BitVec 64) : (b >>> 52 &&& 0x7ff).toNat = magnitude b / 2 ^ 52 := by
  have hlt := b.isLt
  rw [BitVec.toNat_and, BitVec.toNat_ushiftRight, Nat.shiftRight_eq_div_pow, magnitude]
  change b.toNat / 2 ^ 52 &&& (2 ^ 11 - 1) = _
  rw [Nat.and_two_pow_sub_one_eq_mod]
  omega

theorem magnitude_zero_iff (b : BitVec 64) : b &&& 0x7fffffffffffffff = 0 ↔ magnitude b = 0 := by
  rw [← BitVec.toNat_inj, BitVec.toNat_and, magnitude]
  change b.toNat &&& (2 ^ 63 - 1) = 0 ↔ _
  rw [Nat.and_two_pow_sub_one_eq_mod]

theorem sign_zero_iff (b : BitVec 64) : b >>> 63 = 0 ↔ b.msb = false := by
  have hlt := b.isLt
  rw [← BitVec.toNat_inj, BitVec.toNat_ushiftRight, Nat.shiftRight_eq_div_pow, BitVec.msb_eq_decide,
    decide_eq_false_iff_not]
  change b.toNat / 2 ^ 63 = 0 ↔ ¬2 ^ 63 ≤ b.toNat
  omega

theorem mask_toNat (hk : k < 64) : ((1#64 <<< k) - 1).toNat = 2 ^ k - 1 := by
  have hpow : 2 ^ k < 2 ^ 64 := Nat.pow_lt_pow_right (by decide) hk
  have hpos := Nat.two_pow_pos k
  have hshift : (1#64 <<< k).toNat = 2 ^ k := by
    rw [BitVec.toNat_shiftLeft]
    change 1 <<< k % 2 ^ 64 = 2 ^ k
    rw [Nat.one_shiftLeft, Nat.mod_eq_of_lt hpow]
  rw [BitVec.toNat_sub_of_le, hshift]
  · rfl
  · rw [BitVec.le_def, hshift]
    exact hpos

theorem low_zero_iff (hk : k < 64) :
    b &&& ((1#64 <<< k) - 1) = 0 ↔ b.toNat % 2 ^ k = 0 := by
  rw [← BitVec.toNat_inj, BitVec.toNat_and, mask_toNat hk, Nat.and_two_pow_sub_one_eq_mod]
  rfl

/-- Clearing the bits below the point. -/
theorem clear_toNat (hk : k < 64) :
    (b &&& ~~~((1#64 <<< k) - 1)).toNat = b.toNat / 2 ^ k * 2 ^ k := by
  have hlt := b.isLt
  rw [BitVec.toNat_and, BitVec.toNat_not, mask_toNat hk]
  refine Nat.eq_of_testBit_eq fun i => ?_
  have hpos := Nat.two_pow_pos k
  have hle : 2 ^ k ≤ 2 ^ 64 := Nat.pow_le_pow_right (by decide) hk.le
  rw [Nat.testBit_and, show 2 ^ 64 - 1 - (2 ^ k - 1) = 2 ^ 64 - (2 ^ k - 1 + 1) by omega,
    Nat.testBit_two_pow_sub_succ (by omega), Nat.testBit_two_pow_sub_one,
    ← Nat.shiftRight_eq_div_pow, ← Nat.shiftLeft_eq, Nat.testBit_shiftLeft,
    Nat.testBit_shiftRight]
  rcases Nat.lt_or_ge i k with hik | hik
  · simp [hik, Nat.not_le.mpr hik]
  · rw [Nat.add_sub_cancel' hik]
    rcases Nat.lt_or_ge i 64 with hi | hi
    · simp [hik, hi, Nat.not_lt.mpr hik]
    · have : b.toNat.testBit i = false :=
        Nat.testBit_lt_two_pow (hlt.trans_le (Nat.pow_le_pow_right (by decide) hi))
      simp [this]

/-- Bits put together from a sign and a magnitude. -/
theorem parts_of_toNat {c : BitVec 64} {s : Bool} (hn : n < 2 ^ 63)
    (h : c.toNat = s.toNat * 2 ^ 63 + n) : c.msb = s ∧ magnitude c = n := by
  rw [magnitude, BitVec.msb_eq_decide, h]
  cases s
  · rw [Bool.toNat_false]
    exact ⟨decide_eq_false (by omega), by omega⟩
  · rw [Bool.toNat_true]
    exact ⟨decide_eq_true (by omega), by omega⟩

/-! ## The three ranges of the exponent -/

theorem hostCeil_large (h : 1075 ≤ magnitude b / 2 ^ 52 ∨ magnitude b = 0) : hostCeil b = b := by
  rw [hostCeil, exp_toNat]
  exact if_pos (h.imp_right (magnitude_zero_iff b).mpr)

theorem hostCeil_small (h : magnitude b / 2 ^ 52 < 1023) (h₀ : magnitude b ≠ 0) :
    hostCeil b = if b.msb then 0x8000000000000000 else 0x3ff0000000000000 := by
  have hgate : ¬(magnitude b / 2 ^ 52 ≥ 1023 + 52 ∨ b &&& 0x7fffffffffffffff = 0) := by
    rw [magnitude_zero_iff]
    omega
  rw [hostCeil, exp_toNat]
  dsimp only
  rw [if_neg hgate, if_pos h]
  cases hs : b.msb
  · rw [if_neg (not_not.mpr ((sign_zero_iff b).mpr hs))]
    rfl
  · rw [if_pos (mt (sign_zero_iff b).mp (by rw [hs]; exact Bool.noConfusion))]
    rfl

/-- The multiples of a power of two next to a magnitude. -/
theorem hostCeil_middle (h : 1023 ≤ magnitude b / 2 ^ 52) (hk : k + magnitude b / 2 ^ 52 = 1075)
    (hk₀ : 0 < k) :
    (hostCeil b).msb = b.msb ∧ magnitude (hostCeil b) =
      if b.msb then magnitude b / 2 ^ k * 2 ^ k else (magnitude b + (2 ^ k - 1)) / 2 ^ k * 2 ^ k := by
  have hbits := toNat_eq b
  have hlt := magnitude_lt b
  have hpos := Nat.two_pow_pos k
  have hK : 2 ^ k ≤ 2 ^ 52 := Nat.pow_le_pow_right (by decide) (by omega)
  have hdvd : 2 ^ 63 = 2 ^ k * 2 ^ (63 - k) := by
    rw [← pow_add, Nat.add_sub_cancel' (by omega)]
  have hdown := Nat.div_mul_le_self (magnitude b) (2 ^ k)
  have hup := Nat.div_mul_le_self (magnitude b + (2 ^ k - 1)) (2 ^ k)
  have hgate : ¬(magnitude b / 2 ^ 52 ≥ 1023 + 52 ∨ b &&& 0x7fffffffffffffff = 0) := by
    rw [magnitude_zero_iff]
    omega
  rw [hostCeil, exp_toNat]
  dsimp only
  rw [if_neg hgate, if_neg (by omega), show 1023 + 52 - magnitude b / 2 ^ 52 = k by omega]
  by_cases hzero : b &&& ((1#64 <<< k) - 1) = 0
  · -- nothing is below the point
    have hlow := (low_zero_iff (by omega)).mp hzero
    have hmod : magnitude b % 2 ^ k = 0 := by
      rw [hbits, hdvd, Nat.mul_left_comm, Nat.mul_add_mod] at hlow
      exact hlow
    have hq := Nat.div_add_mod (magnitude b) (2 ^ k)
    have hsame : (magnitude b + (2 ^ k - 1)) / 2 ^ k = magnitude b / 2 ^ k := by
      refine Nat.div_eq_of_lt_le ?_ ?_
      · rw [Nat.mul_comm]
        omega
      · rw [Nat.succ_mul, Nat.mul_comm]
        omega
    rw [if_pos hzero, hsame, ite_self, Nat.mul_comm]
    exact ⟨rfl, by omega⟩
  · rw [if_neg hzero]
    cases hs : b.msb
    · rw [if_pos ((sign_zero_iff b).mpr hs), if_neg Bool.false_ne_true]
      rw [hs, Bool.toNat_false] at hbits
      have hsum : (b + ((1#64 <<< k) - 1)).toNat = magnitude b + (2 ^ k - 1) := by
        rw [BitVec.toNat_add, mask_toNat (by omega), hbits]
        omega
      refine parts_of_toNat (by omega) ?_
      rw [clear_toNat (by omega), hsum, Bool.toNat_false]
      omega
    · rw [if_neg (mt (sign_zero_iff b).mp (by rw [hs]; exact Bool.noConfusion)), if_pos rfl]
      refine parts_of_toNat (by omega) ?_
      rw [clear_toNat (by omega), hbits, hs, Bool.toNat_true, hdvd, one_mul, Nat.mul_comm (2 ^ k),
        Nat.add_comm, Nat.add_mul_div_right _ _ hpos, Nat.add_mul, Nat.add_comm]

/-! ## Numbers -/

theorem abs_value {e k m : ℕ} (hm : 2 ^ 52 ≤ m) (hm' : m ≤ 2 ^ 53) (hek : e + k = 1074) :
    (units (e * 2 ^ 52 + m) : ℚ) / 2 ^ 1074 = m / 2 ^ k := by
  rw [units_mantissa hm hm', ← hek, pow_add]
  push_cast
  field_simp

/-- A multiple of the power of two is a whole number. -/
theorem abs_value_whole {e k q : ℕ} (hm : 2 ^ 52 ≤ q * 2 ^ k) (hm' : q * 2 ^ k ≤ 2 ^ 53)
    (hek : e + k = 1074) : (units (e * 2 ^ 52 + q * 2 ^ k) : ℚ) / 2 ^ 1074 = q := by
  rw [abs_value hm hm' hek]
  push_cast
  field_simp

theorem value_of_abs {q : ℚ} {s : Bool} (hs : b.msb = s)
    (h : (units (magnitude b) : ℚ) / 2 ^ 1074 = q) : value b = if s then -q else q := by
  rw [value, hs, h]

theorem value_whole (h : 1075 ≤ magnitude b / 2 ^ 52) : ∃ z : ℤ, value b = z := by
  obtain ⟨e, m, hn, he, hm, hm'⟩ := exists_mantissa (n := magnitude b) (by omega)
  have habs : (units (magnitude b) : ℚ) / 2 ^ 1074 = (m * 2 ^ (e - 1074) : ℕ) := by
    rw [hn, units_mantissa hm hm'.le]
    have hsplit : (2 : ℚ) ^ e = 2 ^ (e - 1074) * 2 ^ 1074 := by
      rw [← pow_add, Nat.sub_add_cancel (by omega)]
    push_cast
    rw [hsplit]
    field_simp
  rw [value_of_abs rfl habs]
  cases b.msb
  · exact ⟨(m * 2 ^ (e - 1074) : ℕ), rfl⟩
  · exact ⟨-(m * 2 ^ (e - 1074) : ℕ), by push_cast; rfl⟩

theorem abs_value_small (h : magnitude b / 2 ^ 52 < 1023) (h₀ : magnitude b ≠ 0) :
    0 < (units (magnitude b) : ℚ) / 2 ^ 1074 ∧ (units (magnitude b) : ℚ) / 2 ^ 1074 < 1 := by
  have hpow : (0 : ℚ) < 2 ^ 1074 := pow_pos two_pos _
  have hlow : 0 < units (magnitude b) := by
    have := units_strictMono (Nat.pos_of_ne_zero h₀)
    rwa [units_small (Nat.zero_le _)] at this
  have hhigh : units (magnitude b) < 2 ^ 1074 := by
    rw [← units_one]
    exact units_strictMono (by omega)
  refine ⟨div_pos (Nat.cast_pos.mpr hlow) hpow, (div_lt_one hpow).mpr ?_⟩
  have hcast := (Nat.cast_lt (α := ℚ)).mpr hhigh
  rwa [Nat.cast_pow, Nat.cast_ofNat] at hcast

theorem ceil_div_nat (m k : ℕ) (hk : 0 < k) : ⌈(m : ℚ) / k⌉ = ((m + (k - 1)) / k : ℕ) := by
  have hdiv := Nat.div_add_mod (m + (k - 1)) k
  have hmod := Nat.mod_lt (m + (k - 1)) hk
  generalize (m + (k - 1)) / k = q at hdiv ⊢
  have hk' : (0 : ℚ) < k := by exact_mod_cast hk
  have hle : m ≤ q * k := by
    rw [Nat.mul_comm]
    omega
  have hlt : q * k < m + k := by
    rw [Nat.mul_comm]
    omega
  rw [Int.ceil_eq_iff, lt_div_iff₀ hk', div_le_iff₀ hk']
  have hle' : (m : ℚ) ≤ q * k := by exact_mod_cast hle
  have hlt' : (q * k : ℚ) < m + k := by exact_mod_cast hlt
  refine ⟨?_, by exact_mod_cast hle'⟩
  push_cast
  linarith

theorem floor_div_nat (m k : ℕ) (hk : 0 < k) : ⌊(m : ℚ) / k⌋ = (m / k : ℕ) := by
  have hdiv := Nat.div_add_mod m k
  have hmod := Nat.mod_lt m hk
  generalize m / k = q at hdiv ⊢
  have hk' : (0 : ℚ) < k := by exact_mod_cast hk
  have hle : q * k ≤ m := by
    rw [Nat.mul_comm]
    omega
  have hlt : m < q * k + k := by
    rw [Nat.mul_comm]
    omega
  rw [Int.floor_eq_iff, le_div_iff₀ hk', div_lt_iff₀ hk']
  have hle' : (q * k : ℚ) ≤ m := by exact_mod_cast hle
  have hlt' : (m : ℚ) < q * k + k := by exact_mod_cast hlt
  refine ⟨by exact_mod_cast hle', ?_⟩
  push_cast
  linarith

/-- The result is finite and has the bits of the least integer that is not below the number, with the
sign of the number. -/
structure CeilExact (b : BitVec 64) : Prop where
  infinite : ¬Finite b → hostCeil b = b
  finite : Finite b → Finite (hostCeil b)
  ceil : Finite b → value (hostCeil b) = ⌈value b⌉
  sign : (hostCeil b).msb = b.msb
  only : Finite b → ∀ c, c.msb = b.msb → value c = ⌈value b⌉ → c = hostCeil b
  zero : value b = 0 → hostCeil b = b
  negative : -1 < value b → value b < 0 → hostCeil b = 0x8000000000000000

/-- The rounded number has the sign and the value that are asked for. -/
def Rounds (b : BitVec 64) : Prop :=
  Finite (hostCeil b) ∧ (hostCeil b).msb = b.msb ∧ value (hostCeil b) = ⌈value b⌉

theorem rounds_large (hfin : Finite b) (h : 1075 ≤ magnitude b / 2 ^ 52 ∨ magnitude b = 0) :
    Rounds b := by
  rw [Rounds, hostCeil_large h]
  refine ⟨hfin, rfl, ?_⟩
  rcases h with hlarge | hzero
  · obtain ⟨z, hz⟩ := value_whole hlarge
    rw [hz, Int.ceil_intCast]
  · have habs : (units (magnitude b) : ℚ) / 2 ^ 1074 = 0 := by
      rw [hzero, units_small (Nat.zero_le _), Nat.cast_zero, zero_div]
    rw [value_of_abs rfl habs, neg_zero, ite_self, Int.ceil_zero, Int.cast_zero]

theorem value_one : value 0x3ff0000000000000 = 1 := by
  have hbits : magnitude 0x3ff0000000000000 = 1022 * 2 ^ 52 + 2 ^ 52 := by decide
  have habs : (units (magnitude 0x3ff0000000000000) : ℚ) / 2 ^ 1074 = 1 := by
    rw [hbits, abs_value (k := 52) le_rfl (by norm_num) (by norm_num)]
    norm_num
  exact value_of_abs (s := false) rfl habs

theorem value_minus_zero : value 0x8000000000000000 = 0 := by
  have hbits : magnitude 0x8000000000000000 = 0 := by decide
  have habs : (units (magnitude 0x8000000000000000) : ℚ) / 2 ^ 1074 = 0 := by
    rw [hbits, units_small (Nat.zero_le _), Nat.cast_zero, zero_div]
  rw [value_of_abs (s := true) rfl habs, if_pos rfl, neg_zero]

theorem rounds_small (h : magnitude b / 2 ^ 52 < 1023) (h₀ : magnitude b ≠ 0) : Rounds b := by
  obtain ⟨hpos, hone⟩ := abs_value_small h h₀
  rw [Rounds, hostCeil_small h h₀, value_of_abs (b := b) rfl rfl]
  generalize (units (magnitude b) : ℚ) / 2 ^ 1074 = q at hpos hone ⊢
  cases b.msb
  · have hceil : ⌈q⌉ = 1 := by
      rw [Int.ceil_eq_iff]
      exact ⟨by simpa using hpos, by simpa using hone.le⟩
    rw [if_neg Bool.false_ne_true, if_neg Bool.false_ne_true, value_one, hceil]
    exact ⟨show magnitude _ / 2 ^ 52 < 2047 by decide, rfl, by norm_num⟩
  · have hceil : ⌈-q⌉ = 0 := by
      rw [Int.ceil_eq_iff]
      constructor <;> push_cast <;> linarith
    rw [if_pos rfl, if_pos rfl, value_minus_zero, hceil]
    exact ⟨show magnitude _ / 2 ^ 52 < 2047 by decide, rfl, by norm_num⟩

theorem rounds_middle (hmiddle : 1023 ≤ magnitude b / 2 ^ 52) (hlt : magnitude b / 2 ^ 52 < 1075) :
    Rounds b := by
  obtain ⟨e, m, hn, he, hm, hm'⟩ := exists_mantissa (n := magnitude b) (by omega)
  obtain ⟨k, hk⟩ : ∃ k, k + magnitude b / 2 ^ 52 = 1075 := ⟨1075 - magnitude b / 2 ^ 52, by omega⟩
  obtain ⟨hmsb, hmag⟩ := hostCeil_middle hmiddle hk (by omega)
  have hek : e + k = 1074 := by omega
  have hpos := Nat.two_pow_pos k
  have hdvd : 2 ^ 52 = 2 ^ k * 2 ^ (52 - k) := by
    rw [← pow_add, Nat.add_sub_cancel' (by omega)]
  have habs : (units (magnitude b) : ℚ) / 2 ^ 1074 = (m : ℚ) / (2 ^ k : ℕ) := by
    rw [hn, abs_value hm hm'.le hek]
    push_cast
    rfl
  -- the multiples of the power of two next to the significand
  have hshift : ∀ j, (e * 2 ^ 52 + j) / 2 ^ k * 2 ^ k = e * 2 ^ 52 + j / 2 ^ k * 2 ^ k := by
    intro j
    rw [hdvd, Nat.mul_left_comm, Nat.mul_add_div hpos, Nat.add_mul, Nat.mul_comm (e * _)]
  have hlow : 2 ^ 52 ≤ m / 2 ^ k * 2 ^ k := by
    rw [hdvd, Nat.mul_comm]
    refine Nat.mul_le_mul_right _ ((Nat.le_div_iff_mul_le hpos).mpr ?_)
    rwa [Nat.mul_comm, ← hdvd]
  have hhigh : (m + (2 ^ k - 1)) / 2 ^ k * 2 ^ k ≤ 2 ^ 53 := by
    have h53 : 2 ^ 53 = 2 ^ (53 - k) * 2 ^ k := by
      rw [← pow_add, Nat.sub_add_cancel (by omega)]
    rw [h53]
    refine Nat.mul_le_mul_right _ (Nat.le_of_lt_succ ((Nat.div_lt_iff_lt_mul hpos).mpr ?_))
    rw [Nat.succ_mul, ← h53]
    omega
  have hmono : m / 2 ^ k * 2 ^ k ≤ (m + (2 ^ k - 1)) / 2 ^ k * 2 ^ k :=
    Nat.mul_le_mul_right _ (Nat.div_le_div_right (Nat.le_add_right ..))
  rw [hn, Nat.add_assoc, hshift, hshift] at hmag
  refine ⟨?_, hmsb, ?_⟩
  · rw [Binary64.Finite, hmag]
    split <;> omega
  · rw [value_of_abs rfl habs]
    cases hs : b.msb
    · rw [hs, if_neg Bool.false_ne_true] at hmag
      have hwhole := abs_value_whole (hlow.trans hmono) hhigh hek
      rw [← hmag] at hwhole
      rw [if_neg Bool.false_ne_true, ceil_div_nat m (2 ^ k) hpos,
        value_of_abs (hmsb.trans hs) hwhole, if_neg Bool.false_ne_true, Int.cast_natCast]
    · rw [hs, if_pos rfl] at hmag
      have hwhole := abs_value_whole hlow (hmono.trans hhigh) hek
      rw [← hmag] at hwhole
      rw [if_pos rfl, Int.ceil_neg, floor_div_nat m (2 ^ k) hpos,
        value_of_abs (hmsb.trans hs) hwhole, if_pos rfl, Int.cast_neg, Int.cast_natCast]

theorem rounds (hfin : Finite b) : Rounds b := by
  by_cases hlarge : 1075 ≤ magnitude b / 2 ^ 52 ∨ magnitude b = 0
  · exact rounds_large hfin hlarge
  · rcases Nat.lt_or_ge (magnitude b / 2 ^ 52) 1023 with hsmall | hmiddle
    · exact rounds_small hsmall fun h => hlarge (.inr h)
    · exact rounds_middle hmiddle (Nat.lt_of_not_le fun h => hlarge (.inl h))

/-- Magnitudes are ordered as their bits. -/
theorem abs_value_lt_one (h : (units (magnitude b) : ℚ) / 2 ^ 1074 < 1) :
    magnitude b / 2 ^ 52 < 1023 := by
  have hlt : units (magnitude b) < units (1022 * 2 ^ 52 + 2 ^ 52) := by
    rw [div_lt_one (pow_pos two_pos _)] at h
    rwa [units_one, ← Nat.cast_lt (α := ℚ), Nat.cast_pow, Nat.cast_ofNat]
  rw [units_strictMono.lt_iff_lt] at hlt
  clear h
  omega

theorem magnitude_of_value_zero (h : value b = 0) : magnitude b = 0 := by
  by_contra h₀
  have hpos := units_strictMono (Nat.pos_of_ne_zero h₀)
  rw [units_small (Nat.zero_le _)] at hpos
  have habs : (0 : ℚ) < (units (magnitude b) : ℚ) / 2 ^ 1074 :=
    div_pos (Nat.cast_pos.mpr hpos) (pow_pos two_pos _)
  rw [value] at h
  split_ifs at h
  · exact habs.ne' (neg_eq_zero.mp h)
  · exact habs.ne' h

/-- **`host_ceil` is exact.** -/
theorem hostCeil_exact (b : BitVec 64) : CeilExact b where
  infinite := fun h => hostCeil_large (.inl (by rw [Binary64.Finite] at h; omega))
  finite := fun h => (rounds h).1
  ceil := fun h => (rounds h).2.2
  sign := by
    by_cases h : Finite b
    · exact (rounds h).2.1
    · rw [hostCeil_large (.inl (by rw [Binary64.Finite] at h; omega))]
  only := fun h c hmsb hc => value_inj (hmsb.trans (rounds h).2.1.symm) (hc.trans (rounds h).2.2.symm)
  zero := fun h => hostCeil_large (.inr (magnitude_of_value_zero h))
  negative := fun h h' => by
    have hmsb : b.msb = true := by
      by_contra hmsb
      rw [value, if_neg hmsb] at h'
      exact absurd h' (not_lt.mpr (div_nonneg (Nat.cast_nonneg _) (pow_pos two_pos _).le))
    have h₀ : magnitude b ≠ 0 := by
      intro h₀
      rw [value, if_pos hmsb, h₀, units_small (Nat.zero_le _), Nat.cast_zero, zero_div, neg_zero]
        at h'
      exact absurd h' (lt_irrefl 0)
    rw [value, if_pos hmsb] at h
    rw [hostCeil_small (abs_value_lt_one (neg_lt_neg_iff.mp h)) h₀, if_pos hmsb]

/-! ## Distances -/

/-- The guard before the sum does not wrap, or it makes no difference: a coordinate is too large for
its square, or the second square is not above the maximum, or the sum is so large that the wrapped
guard finds it too. -/
def SquaresFit (dx dy : ℤ) : Prop :=
  2 ^ 32 ≤ |dx| ∨ 2 ^ 32 ≤ |dy| ∨ dy ^ 2 ≤ intMax ∨ 2 ^ 64 + 2 ^ 63 ≤ dx ^ 2 + dy ^ 2

instance (dx dy : ℤ) : Decidable (SquaresFit dx dy) := inferInstanceAs (Decidable (_ ∨ _))

theorem absWord_eq (d : ℤ) : (absWord d : ℤ) = |d| := by
  rw [absWord]
  split_ifs with h
  · rw [abs_of_neg h]
    omega
  · rw [abs_of_nonneg (not_lt.mp h)]
    omega

/-- No two squares have the sum that the wrapped result would be right for. -/
theorem sum_of_squares_ne (x y : ℕ) : x * x + y * y ≠ 2 ^ 64 + 2 ^ 63 - 1 := by
  have hmod : ∀ n : ℕ, n * n % 4 = 0 ∨ n * n % 4 = 1 := by
    intro n
    rw [Nat.mul_mod]
    have : n % 4 < 4 := Nat.mod_lt n (by decide)
    interval_cases n % 4 <;> simp
  have hx := hmod x
  have hy := hmod y
  omega

/-- The saturated square of the distance. -/
def distSqr (x1 y1 x2 y2 : ℤ) : ℤ := min intMax ((x1 - x2) ^ 2 + (y1 - y2) ^ 2)

theorem overflows_large {d : ℤ} (h : overflows d) : 2 ^ 63 ≤ |d| := by
  simp only [overflows, Bool.not_eq_true', Bool.and_eq_false_iff, decide_eq_false_iff_not] at h
  rcases h with h | h
  · rw [le_abs]
    omega
  · rw [le_abs]
    omega

/-- A coordinate that is too large for its square. -/
theorem distSqr_large {x1 y1 x2 y2 : ℤ} (h : 2 ^ 32 ≤ |x1 - x2| ∨ 2 ^ 32 ≤ |y1 - y2|) :
    distSqr x1 y1 x2 y2 = intMax := by
  refine min_eq_left ?_
  have hsq : ∀ d : ℤ, 2 ^ 32 ≤ |d| → 2 ^ 64 ≤ d ^ 2 := by
    intro d hd
    rw [← sq_abs]
    calc (2 : ℤ) ^ 64 = (2 ^ 32) ^ 2 := by norm_num
      _ ≤ |d| ^ 2 := pow_le_pow_left₀ (by norm_num) hd 2
  have hx := sq_nonneg (x1 - x2)
  have hy := sq_nonneg (y1 - y2)
  rw [intMax]
  rcases h with h | h
  · have := hsq _ h
    omega
  · have := hsq _ h
    omega

/-- **`host_dist_sqr_i64` is exact** exactly when the guard before the sum is. -/
theorem hostDistSqrI64_iff (x1 y1 x2 y2 : ℤ) :
    hostDistSqrI64 x1 y1 x2 y2 = distSqr x1 y1 x2 y2 ↔ SquaresFit (x1 - x2) (y1 - y2) := by
  rw [hostDistSqrI64]
  dsimp only
  have hax := absWord_eq (x1 - x2)
  have hay := absWord_eq (y1 - y2)
  by_cases hlarge : 2 ^ 32 ≤ |x1 - x2| ∨ 2 ^ 32 ≤ |y1 - y2|
  · have hfit : SquaresFit (x1 - x2) (y1 - y2) := by
      rcases hlarge with h | h
      · exact .inl h
      · exact .inr (.inl h)
    rw [distSqr_large hlarge]
    refine iff_of_true ?_ hfit
    split_ifs <;> first | rfl | omega
  · have hover : ¬(overflows (x1 - x2) || overflows (y1 - y2)) := by
      rw [Bool.or_eq_true]
      rintro (h | h)
      · have := overflows_large h
        omega
      · have := overflows_large h
        omega
    rw [if_neg hover, if_neg (by omega), if_neg (by omega), SquaresFit, distSqr, ← sq_abs (x1 - x2),
      ← sq_abs (y1 - y2), ← hax, ← hay]
    generalize absWord (x1 - x2) = ax at hax ⊢
    generalize absWord (y1 - y2) = ay at hay ⊢
    have hne := sum_of_squares_ne ax ay
    have hxx : ax * ax ≤ (2 ^ 32 - 1) * (2 ^ 32 - 1) := Nat.mul_le_mul (by omega) (by omega)
    have hyy : ay * ay ≤ (2 ^ 32 - 1) * (2 ^ 32 - 1) := Nat.mul_le_mul (by omega) (by omega)
    have hx2 : (ax : ℤ) ^ 2 = (ax * ax : ℕ) := by push_cast; ring
    have hy2 : (ay : ℤ) ^ 2 = (ay * ay : ℕ) := by push_cast; ring
    rw [hx2, hy2]
    generalize ax * ax = xx at *
    generalize ay * ay = yy at *
    rw [signedWord, intMax]
    split_ifs <;> omega

/-- Where it is exact it is monotone in the distances of the coordinates. -/
theorem distSqr_mono {x1 y1 x2 y2 x1' y1' x2' y2' : ℤ} (hx : |x1 - x2| ≤ |x1' - x2'|)
    (hy : |y1 - y2| ≤ |y1' - y2'|) : distSqr x1 y1 x2 y2 ≤ distSqr x1' y1' x2' y2' :=
  min_le_min_left _ (add_le_add (sq_le_sq.mpr hx) (sq_le_sq.mpr hy))

/-- **The numeric helpers**: `host_ceil` is exact everywhere, and `host_dist_sqr_i64` is exactly where
the guard before its sum holds; there it is monotone. -/
theorem numeric_exact_iff (x1 y1 x2 y2 : ℤ) :
    (∀ b, CeilExact b) ∧
    (hostDistSqrI64 x1 y1 x2 y2 =
      min intMax ((x1 - x2) ^ 2 + (y1 - y2) ^ 2) ↔ SquaresFit (x1 - x2) (y1 - y2)) ∧
    ∀ x1' y1' x2' y2', SquaresFit (x1 - x2) (y1 - y2) →
      SquaresFit (x1' - x2') (y1' - y2') → |x1 - x2| ≤ |x1' - x2'| → |y1 - y2| ≤ |y1' - y2'| →
      hostDistSqrI64 x1 y1 x2 y2 ≤ hostDistSqrI64 x1' y1' x2' y2' := by
  refine ⟨hostCeil_exact, hostDistSqrI64_iff x1 y1 x2 y2, ?_⟩
  intro x1' y1' x2' y2' h h' hx hy
  rw [(hostDistSqrI64_iff _ _ _ _).mpr h, (hostDistSqrI64_iff _ _ _ _).mpr h']
  exact distSqr_mono hx hy

theorem numeric_exact_small : hostCeil 0x3ff8000000000000 = 0x4000000000000000 ∧
    hostDistSqrI64 3 4 0 0 = 25 ∧ hostDistSqrI64 3 4 0 0 ≤ hostDistSqrI64 3 (-5) 0 0 :=
  ⟨by decide, by decide, (numeric_exact_iff 3 4 0 0).2.2 3 (-5) 0 0 (by decide) (by decide) (by decide)
    (by decide)⟩

/-- The guard wraps, and the sum is taken for a negative number. -/
theorem dist_wraps : hostDistSqrI64 0 4294967295 0 0 = -8589934591 ∧
    ¬ ∀ x1 y1 x2 y2, hostDistSqrI64 x1 y1 x2 y2 =
      min intMax ((x1 - x2) ^ 2 + (y1 - y2) ^ 2) := by
  refine ⟨by decide, fun h => ?_⟩
  have hwrapped := h 0 4294967295 0 0
  exact absurd hwrapped (by decide)

end ZealBringup.Zc
