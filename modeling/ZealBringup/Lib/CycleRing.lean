import Mathlib.Data.Nat.Notation
import Mathlib.Tactic.Common

/-!
# Rings with a cycle bit

A ring of `n` slots where item `k` goes into slot `k % n`, with a bit that tells odd laps from even
ones, so that a reader knows new items from those of the last lap.

* `lapBit` — the bit of an item.
* `newest` — the newest item in a slot.
* `slotBit` — the bit that a slot shows.
* `slotBit_eq_iff` — the bit of a slot is that of the next item exactly when it is there.
-/

namespace CycleRing

variable {n d k s : ℕ}

/-- The bit of an item: on in even laps. -/
def lapBit (n k : ℕ) : Bool := k / n % 2 = 0

/-- The newest of `d` items that a slot has. -/
def newest (n : ℕ) : ℕ → ℕ → Option ℕ
  | 0, _ => none
  | d + 1, s => if s = d % n then some d else newest n d s

/-- The bit of a slot after `d` items; it starts off. -/
def slotBit (n d s : ℕ) : Bool := (newest n d s).elim false (lapBit n)

theorem lapBit_zero (n : ℕ) : lapBit n 0 = true := by simp [lapBit]

theorem lapBit_add (hn : 0 < n) (k : ℕ) : lapBit n (k + n) = !lapBit n k := by
  rw [lapBit, lapBit, Nat.add_div_right k hn]
  by_cases heven : k / n % 2 = 0
  · rw [decide_eq_true heven, decide_eq_false (by omega), Bool.not_true]
  · rw [decide_eq_false heven, decide_eq_true (by omega), Bool.not_false]

/-- The bit within a lap. -/
theorem lapBit_succ (h : (k + 1) % n ≠ 0) : lapBit n (k + 1) = lapBit n k := by
  rw [lapBit, lapBit, Nat.succ_div_of_mod_ne_zero h]

/-- The bit at the end of a lap. -/
theorem lapBit_succ_of_mod_eq_zero (h : (k + 1) % n = 0) : lapBit n (k + 1) = !lapBit n k := by
  rw [lapBit, lapBit, Nat.succ_div_of_mod_eq_zero h]
  by_cases heven : k / n % 2 = 0
  · rw [decide_eq_true heven, decide_eq_false (by omega), Bool.not_true]
  · rw [decide_eq_false heven, decide_eq_true (by omega), Bool.not_false]

/-- Items of other slots. -/
theorem newest_add {i : ℕ} (h : ∀ j < i, s ≠ (d + j) % n) : newest n (d + i) s = newest n d s := by
  induction i with
  | zero => rfl
  | succ i ih =>
    rw [← Nat.add_assoc, newest, if_neg (h i (Nat.lt_succ_self i))]
    exact ih fun j hj => h j (Nat.lt_succ_of_lt hj)

/-- Less than a lap apart, items are in different slots. -/
theorem mod_ne_of_lt {i j : ℕ} (hij : i < j) (hji : j < i + n) : i % n ≠ j % n := by
  intro h
  have hdvd : n ∣ j - i := Nat.dvd_of_mod_eq_zero (Nat.sub_mod_eq_zero_of_mod_eq h.symm)
  exact absurd (Nat.le_of_dvd (by omega) hdvd) (by omega)

/-- The newest item of a slot is the next one, if that is there. -/
theorem newest_of_lt (hkd : k < d) (hdk : d ≤ k + n) : newest n d (k % n) = some k := by
  obtain ⟨i, rfl⟩ := Nat.exists_eq_add_of_lt hkd
  have hskip : newest n (k + 1 + i) (k % n) = newest n (k + 1) (k % n) :=
    newest_add fun j hj => mod_ne_of_lt (by omega) (by omega)
  rw [Nat.add_right_comm, hskip, newest, if_pos rfl]

/-- A slot without the next item has the one of the lap before. -/
theorem newest_self (hn : 0 < n) (k : ℕ) :
    newest n k (k % n) = if k < n then none else some (k - n) := by
  by_cases hk : k < n
  · have hskip : newest n (0 + k) (k % n) = newest n 0 (k % n) := newest_add fun j hj => by
      rw [Nat.zero_add]
      exact (mod_ne_of_lt hj (by omega)).symm
    rw [Nat.zero_add] at hskip
    rw [if_pos hk, hskip, newest]
  · obtain ⟨i, rfl⟩ := Nat.exists_eq_add_of_le' (Nat.le_of_not_lt hk)
    rw [if_neg hk, Nat.add_sub_cancel, Nat.add_mod_right]
    exact newest_of_lt (by omega) (Nat.le_refl _)

theorem slotBit_succ (n d s : ℕ) :
    slotBit n (d + 1) s = if s = d % n then lapBit n d else slotBit n d s := by
  rw [slotBit, newest]
  by_cases h : s = d % n
  · rw [if_pos h, if_pos h]
    rfl
  · rw [if_neg h, if_neg h]
    rfl

/-- **Old and new items are told apart**: up to a ring of items ahead, the slot of the next item has
its bit exactly when the item is there. -/
theorem slotBit_eq_iff (hn : 0 < n) (hkd : k ≤ d) (hdk : d ≤ k + n) :
    slotBit n d (k % n) = lapBit n k ↔ k < d := by
  rcases Nat.lt_or_eq_of_le hkd with hlt | rfl
  · rw [slotBit, newest_of_lt hlt hdk]
    exact ⟨fun _ => hlt, fun _ => rfl⟩
  · refine ⟨fun heq => ?_, fun hlt => absurd hlt (Nat.lt_irrefl k)⟩
    rw [slotBit, newest_self hn] at heq
    by_cases hk : k < n
    · have hlap : lapBit n k = true := by rw [lapBit, Nat.div_eq_of_lt hk]; rfl
      rw [if_pos hk, hlap] at heq
      exact absurd heq Bool.false_ne_true
    · have hlap := lapBit_add hn (k - n)
      rw [Nat.sub_add_cancel (Nat.le_of_not_lt hk)] at hlap
      rw [if_neg hk, hlap] at heq
      cases hbit : lapBit n (k - n) <;> simp [hbit] at heq

end CycleRing
