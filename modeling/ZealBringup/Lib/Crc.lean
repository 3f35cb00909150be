import Mathlib

/-!
# Reflected cyclic redundancy checks

A reflected CRC divides a stream of bits, low bit first, by a fixed polynomial.
`shift` is one step of that division.  Programs take it bit by bit, or a byte at
a time from a table of 256 remainders; `shift_iterate_eight` says why the two
agree.

* `shift_xor` — a step is linear in exclusive or.
* `shift_iterate_high` — clear low bits only move the rest down.
* `shift_iterate_eight` — eight steps are one table entry and a shift by eight.
-/

namespace ReflectedCrc

variable (poly : BitVec 32)

/-- One step of the division. -/
def shift (c : BitVec 32) : BitVec 32 := if c.getLsbD 0 then (c >>> 1) ^^^ poly else c >>> 1

theorem shift_xor (a b : BitVec 32) : shift poly (a ^^^ b) = shift poly a ^^^ shift poly b := by
  unfold shift
  rw [BitVec.getLsbD_xor, BitVec.ushiftRight_xor_distrib]
  have cancel : ∀ x y : BitVec 32, x ^^^ y = (x ^^^ poly) ^^^ (y ^^^ poly) := by
    intro x y
    rw [BitVec.xor_assoc, BitVec.xor_comm y, ← BitVec.xor_assoc poly, BitVec.xor_self,
      BitVec.zero_xor]
  cases a.getLsbD 0 with
  | false =>
    cases b.getLsbD 0 with
    | false => rfl
    | true => exact BitVec.xor_assoc _ _ _
  | true =>
    cases b.getLsbD 0 with
    | false =>
      show a >>> 1 ^^^ b >>> 1 ^^^ poly = a >>> 1 ^^^ poly ^^^ b >>> 1
      rw [BitVec.xor_assoc, BitVec.xor_comm (b >>> 1), ← BitVec.xor_assoc]
    | true => exact cancel _ _

theorem shift_iterate_xor (n : ℕ) (a b : BitVec 32) :
    (shift poly)^[n] (a ^^^ b) = (shift poly)^[n] a ^^^ (shift poly)^[n] b := by
  induction n generalizing a b with
  | zero => rfl
  | succ n ih =>
    rw [Function.iterate_succ_apply, Function.iterate_succ_apply, Function.iterate_succ_apply,
      shift_xor, ih]

/-- While the low bits are clear, the division only moves the remainder down. -/
theorem shift_iterate_high {y : BitVec 32} {n : ℕ} (hy : ∀ i < n, y.getLsbD i = false) :
    (shift poly)^[n] y = y >>> n := by
  induction n with
  | zero => simp
  | succ n ih =>
    have hlow : (y >>> n).getLsbD 0 = false := by simpa using hy n (Nat.lt_succ_self n)
    rw [Function.iterate_succ_apply', ih fun i hi => hy i (Nat.lt_succ_of_lt hi), shift, hlow,
      BitVec.shiftRight_add]
    rfl

theorem low_octet (i : ℕ) : (255#32).getLsbD i = decide (i < 8) := by
  rw [BitVec.getLsbD_ofNat, show (255 : ℕ) = 2 ^ 8 - 1 by rfl, Nat.testBit_two_pow_sub_one]
  by_cases h : i < 8
  · simp [h, show i < 32 by omega]
  · simp [h]

/-- A word is its low octet and the rest. -/
theorem split_octet (x : BitVec 32) : x = (x &&& 255#32) ^^^ (x &&& ~~~255#32) := by
  refine BitVec.eq_of_getLsbD_eq fun i hi => ?_
  rw [BitVec.getLsbD_xor, BitVec.getLsbD_and, BitVec.getLsbD_and, BitVec.getLsbD_not, low_octet]
  cases x.getLsbD i <;> cases decide (i < 8) <;> simp [hi]

/-- **A byte at a time.**  Eight steps are those of the low octet, and the rest of the
word moved down by eight. -/
theorem shift_iterate_eight (x : BitVec 32) :
    (shift poly)^[8] x = (shift poly)^[8] (x &&& 255#32) ^^^ (x >>> 8) := by
  have hclear : ∀ i < 8, (x &&& ~~~255#32).getLsbD i = false := by
    intro i hi
    rw [BitVec.getLsbD_and, BitVec.getLsbD_not, low_octet]
    simp [hi]
  have hrest : (x &&& ~~~255#32) >>> 8 = x >>> 8 := by
    refine BitVec.eq_of_getLsbD_eq fun i hi => ?_
    rw [BitVec.getLsbD_ushiftRight, BitVec.getLsbD_ushiftRight, BitVec.getLsbD_and,
      BitVec.getLsbD_not, low_octet]
    by_cases h : 8 + i < 32
    · simp [h]
    · rw [BitVec.getLsbD_of_ge x _ (by omega), Bool.false_and]
  calc (shift poly)^[8] x
      = (shift poly)^[8] ((x &&& 255#32) ^^^ (x &&& ~~~255#32)) := by rw [← split_octet]
    _ = (shift poly)^[8] (x &&& 255#32) ^^^ (shift poly)^[8] (x &&& ~~~255#32) :=
        shift_iterate_xor poly 8 _ _
    _ = (shift poly)^[8] (x &&& 255#32) ^^^ (x >>> 8) := by
        rw [shift_iterate_high poly hclear, hrest]

end ReflectedCrc
