import Mathlib

/-!
# Sweeps

A sweep runs over `n` consecutive integers from `a` on and strings together what a
function gives at each of them.

* `sweep_add` — a sweep may be cut anywhere.
* `sweep_eq_of_support` — two sweeps of one function agree when each of them reaches
  everything the function gives.
* `mem_sweep` — what a sweep contains.
* `foldl_range_once` — a loop over a range, observed where one of its steps has an effect.
-/

namespace Sweep

variable {α β : Type*} {g g' : ℤ → List α} {a b : ℤ} {n m : ℕ}

/-- What `g` gives at `a`, `a + 1`, …, `a + n - 1`. -/
def sweep (g : ℤ → List α) (a : ℤ) (n : ℕ) : List α := (List.range n).flatMap fun i : ℕ => g (a + i)

@[simp] theorem sweep_zero (g : ℤ → List α) (a : ℤ) : sweep g a 0 = [] := rfl

theorem sweep_add (g : ℤ → List α) (a : ℤ) (n m : ℕ) :
    sweep g a (n + m) = sweep g a n ++ sweep g (a + n) m := by
  rw [sweep, List.range_add, List.flatMap_append, List.flatMap_map]
  simp only [Function.comp_def, Nat.cast_add, ← add_assoc]
  rfl

@[simp] theorem sweep_one (g : ℤ → List α) (a : ℤ) : sweep g a 1 = g a := by
  simp [sweep]

theorem mem_sweep {x : α} : x ∈ sweep g a n ↔ ∃ z, a ≤ z ∧ z < a + n ∧ x ∈ g z := by
  rw [sweep, List.mem_flatMap]
  constructor
  · rintro ⟨i, hi, hx⟩
    have hlt := List.mem_range.mp hi
    exact ⟨a + i, by omega, by omega, hx⟩
  · rintro ⟨z, h1, h2, hx⟩
    refine ⟨(z - a).toNat, List.mem_range.mpr (by omega), ?_⟩
    rwa [Int.toNat_of_nonneg (by omega), add_sub_cancel]

theorem sweep_congr (h : ∀ z, a ≤ z → z < a + n → g z = g' z) : sweep g a n = sweep g' a n :=
  List.flatMap_congr fun i hi => h _ (by omega) (by have := List.mem_range.mp hi; omega)

theorem sweep_eq_nil (h : ∀ z, a ≤ z → z < a + n → g z = []) : sweep g a n = [] := by
  refine List.flatMap_eq_nil_iff.mpr fun i hi => h _ (by omega) ?_
  have hlt := List.mem_range.mp hi
  omega

theorem map_sweep (f : α → β) (g : ℤ → List α) (a : ℤ) (n : ℕ) :
    (sweep g a n).map f = sweep (fun z => (g z).map f) a n := by
  rw [sweep, List.map_flatMap]
  rfl

theorem sweep_shift (g : ℤ → List α) (c a : ℤ) (n : ℕ) :
    sweep (fun z => g (c + z)) a n = sweep g (c + a) n := by
  simp only [sweep, add_assoc]

/-- A longer sweep gives no more when nothing lies in front of the shorter one and behind it. -/
theorem sweep_hull {p q : ℕ} (h1 : ∀ z, a ≤ z → z < a + p → g z = [])
    (h2 : ∀ z, a + p + n ≤ z → g z = []) : sweep g a (p + n + q) = sweep g (a + p) n := by
  have hbehind : sweep g (a + (p + n : ℕ)) q = [] :=
    sweep_eq_nil fun z hz _ => h2 z (by push_cast at hz; omega)
  rw [sweep_add, sweep_add, sweep_eq_nil h1, hbehind, List.nil_append, List.append_nil]

/-- Two sweeps of one function agree when each reaches everything the function gives. -/
theorem sweep_eq_of_support (h : ∀ z, g z ≠ [] → (a ≤ z ∧ z < a + n) ∧ (b ≤ z ∧ z < b + m)) :
    sweep g a n = sweep g b m := by
  -- Both are compared with the sweep over an interval that holds the two.
  have hnil : ∀ z, ¬((a ≤ z ∧ z < a + n) ∧ (b ≤ z ∧ z < b + m)) → g z = [] := fun z hz =>
    not_not.mp fun hne => hz (h z hne)
  have hleft := @sweep_hull _ g (min a b) n (a - min a b).toNat
    ((max (a + n) (b + m)) - (a + n)).toNat (fun z _ _ => hnil z (by omega))
    (fun z _ => hnil z (by omega))
  have hright := @sweep_hull _ g (min a b) m (b - min a b).toNat
    ((max (a + n) (b + m)) - (b + m)).toNat (fun z _ _ => hnil z (by omega))
    (fun z _ => hnil z (by omega))
  have ha : min a b + ((a - min a b).toNat : ℤ) = a := by omega
  have hb : min a b + ((b - min a b).toNat : ℤ) = b := by omega
  rw [ha] at hleft
  rw [hb] at hright
  rw [← hleft, ← hright]
  congr 1
  omega

/-- Two sweeps from one place on agree when both get to the last thing the function gives. -/
theorem sweep_eq_of_reach (h : ∀ z, a ≤ z → g z ≠ [] → z < a + n ∧ z < a + m) :
    sweep g a n = sweep g a m := by
  have hcut : ∀ l, sweep g a l = sweep (fun z => if a ≤ z then g z else []) a l := fun l =>
    sweep_congr fun z hz _ => (if_pos hz).symm
  rw [hcut n, hcut m]
  refine sweep_eq_of_support fun z hz => ?_
  split at hz
  case isTrue haz => exact ⟨⟨haz, (h z haz hz).1⟩, haz, (h z haz hz).2⟩
  case isFalse => exact absurd rfl hz

/-! ## Loops that change a thing once -/

/-- What is observed of the state is changed by one step of the loop only. -/
theorem foldl_range_once {σ γ : Type*} {f : σ → ℕ → σ} {n : ℕ} (obs : σ → γ) (upd : γ → γ)
    (k : ℕ) (hstep : ∀ s, ∀ j < n, obs (f s j) = if j = k then upd (obs s) else obs s) (s : σ) :
    obs ((List.range n).foldl f s) = if k < n then upd (obs s) else obs s := by
  induction n with
  | zero => rfl
  | succ n ih =>
    have hprev := ih fun s j hj => hstep s j (hj.trans n.lt_succ_self)
    rw [List.range_succ, List.foldl_append, List.foldl_cons, List.foldl_nil,
      hstep _ n n.lt_succ_self, hprev]
    by_cases hk : n = k
    · rw [if_pos hk, if_neg (by omega), if_pos (by omega)]
    · rw [if_neg hk]
      exact if_congr (by omega) rfl rfl

end Sweep
