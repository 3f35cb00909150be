import Mathlib.Algebra.Order.Group.Nat
import Mathlib.Data.List.TakeWhile
import Mathlib.Data.ZMod.Defs
import Mathlib.Tactic.Abel

/-!
# Selection in turn

The places of a ring are tried one after another, from the place behind the current one on and round
to the current one; the first that may be selected is selected.

* `nextFrom` — the selection.
* `dist_nextFrom_lt` — a selection of another place comes closer to a place that may be selected.
* `length_takeWhile_selected_le` — over a run whose tests change at will, such a place is reached
  within one round; `mem_selected` is the same for a run of a round.
-/

namespace ZealBringup.RoundRobin

variable {n : ℕ} [NeZero n] {p : Fin n → Bool} {cur i j : Fin n}

/-- The places in the order of the trial. -/
def turn (cur : Fin n) : List (Fin n) := (List.range' 1 n).map fun step => cur + Fin.ofNat n step

/-- The first place that passes, or `dflt`. -/
def nextFrom (dflt : Fin n) (p : Fin n → Bool) (cur : Fin n) : Fin n :=
  ((turn cur).find? p).getD dflt

/-- The places between the current one and another. -/
def dist (cur i : Fin n) : ℕ := (i - (cur + 1)).val

theorem dist_lt (cur i : Fin n) : dist cur i < n := (i - (cur + 1)).isLt

theorem add_dist (cur i : Fin n) : cur + Fin.ofNat n (dist cur i + 1) = i := by
  have hone : Fin.ofNat n (dist cur i + 1) = i - (cur + 1) + 1 := by
    apply Fin.ext
    simp [dist, Fin.val_add]
  rw [hone]
  abel

theorem mem_turn (cur i : Fin n) : i ∈ turn cur := by
  rw [turn, List.mem_map]
  refine ⟨dist cur i + 1, ?_, add_dist cur i⟩
  have hlt := dist_lt cur i
  rw [List.mem_range'_1]
  omega

/-- The distance of the place some steps on. -/
theorem dist_add {step : ℕ} (h1 : 1 ≤ step) (hstep : step ≤ n) :
    dist cur (cur + Fin.ofNat n step) = step - 1 := by
  have heq : cur + Fin.ofNat n step - (cur + 1) = Fin.ofNat n (step - 1) := by
    have hsucc : Fin.ofNat n step = Fin.ofNat n (step - 1) + 1 := by
      apply Fin.ext
      simp [Fin.val_add, Nat.sub_add_cancel h1]
    rw [hsucc]
    abel
  rw [dist, heq, Fin.val_ofNat, Nat.mod_eq_of_lt (by omega)]

/-- Past a place that is nearer, the rest of the way remains. -/
theorem dist_of_lt (h : dist cur j < dist cur i) :
    dist j i = dist cur i - dist cur j - 1 := by
  have hlt := dist_lt cur i
  have hsum : j + Fin.ofNat n (dist cur i - dist cur j) = i := by
    have hsplit : Fin.ofNat n (dist cur i + 1) =
        Fin.ofNat n (dist cur j + 1) + Fin.ofNat n (dist cur i - dist cur j) := by
      apply Fin.ext
      simp only [Fin.val_add, Fin.val_ofNat, Nat.mod_add_mod, Nat.add_mod_mod]
      congr 1
      omega
    calc j + Fin.ofNat n (dist cur i - dist cur j)
        = cur + Fin.ofNat n (dist cur j + 1) + Fin.ofNat n (dist cur i - dist cur j) := by
          rw [add_dist cur j]
      _ = cur + Fin.ofNat n (dist cur i + 1) := by rw [hsplit, add_assoc]
      _ = i := add_dist cur i
  calc dist j i = dist j (j + Fin.ofNat n (dist cur i - dist cur j)) := by rw [hsum]
    _ = dist cur i - dist cur j - 1 := dist_add (by omega) (by omega)

section Selection

variable {dflt : Fin n}

/-- Where some place passes, the selected one passes. -/
theorem nextFrom_passes (h : nextFrom dflt p cur ≠ dflt) : p (nextFrom dflt p cur) := by
  unfold nextFrom at h ⊢
  cases hfind : (turn cur).find? p with
  | none => simp [hfind] at h
  | some j => exact List.find?_some hfind

/-- The selected place is not behind a place that passes. -/
theorem dist_nextFrom_le (h : p i) : dist cur (nextFrom dflt p cur) ≤ dist cur i := by
  unfold nextFrom
  cases hfind : (turn cur).find? p with
  | none => exact absurd h (List.find?_eq_none.mp hfind i (mem_turn cur i))
  | some j =>
    rw [turn, List.find?_map, Option.map_eq_some_iff] at hfind
    obtain ⟨step, hstep, rfl⟩ := hfind
    rw [List.find?_range'_eq_some] at hstep
    obtain ⟨-, hmem, hbefore⟩ := hstep
    rw [List.mem_range'_1] at hmem
    rw [Option.getD_some, dist_add hmem.1 (by omega)]
    by_contra hlt
    have hnot := hbefore (dist cur i + 1) (by omega) (by omega)
    rw [Function.comp_apply, add_dist, h] at hnot
    exact absurd hnot (by decide)

/-- **A selection of another place comes closer** to a place that passes. -/
theorem dist_nextFrom_lt (h : p i) (hne : nextFrom dflt p cur ≠ i) :
    dist (nextFrom dflt p cur) i < dist cur i := by
  have hle : dist cur (nextFrom dflt p cur) ≤ dist cur i := dist_nextFrom_le h
  have hlt : dist cur (nextFrom dflt p cur) < dist cur i := by
    apply Nat.lt_of_le_of_ne hle
    intro heq
    apply hne
    rw [← add_dist cur i, ← heq, add_dist]
  rw [dist_of_lt hlt]
  omega

/-- The places that a run of selections selects. -/
def selected (dflt : Fin n) (cur : Fin n) : List (Fin n → Bool) → List (Fin n)
  | [] => []
  | p :: ps => nextFrom dflt p cur :: selected dflt (nextFrom dflt p cur) ps

theorem length_selected (ps : List (Fin n → Bool)) : (selected dflt cur ps).length = ps.length := by
  induction ps generalizing cur with
  | nil => rfl
  | cons p ps ih => simp [selected, ih]

/-- **A place that passes throughout waits for no more selections than lie before it.** -/
theorem length_takeWhile_selected_le (ps : List (Fin n → Bool)) (h : ∀ p ∈ ps, p i) :
    ((selected dflt cur ps).takeWhile (· ≠ i)).length ≤ dist cur i := by
  induction ps generalizing cur with
  | nil => simp [selected]
  | cons p ps ih =>
    rw [List.forall_mem_cons] at h
    rw [selected, List.takeWhile_cons]
    by_cases heq : nextFrom dflt p cur = i
    · simp [heq]
    · have hlt := dist_nextFrom_lt h.1 heq
      have hrest : ((selected dflt (nextFrom dflt p cur) ps).takeWhile (· ≠ i)).length ≤
          dist (nextFrom dflt p cur) i := ih h.2
      rw [if_pos (by simpa using heq), List.length_cons]
      omega

/-- Such a place is selected within a round. -/
theorem mem_selected (ps : List (Fin n → Bool)) (h : ∀ p ∈ ps, p i) (hlen : n ≤ ps.length) :
    i ∈ selected dflt cur ps := by
  by_contra hnot
  have htake : (selected dflt cur ps).takeWhile (· ≠ i) = selected dflt cur ps := by
    rw [List.takeWhile_eq_self_iff]
    intro j hj
    exact decide_eq_true fun heq => hnot (heq ▸ hj)
  have hwait : ((selected dflt cur ps).takeWhile (· ≠ i)).length ≤ dist cur i :=
    length_takeWhile_selected_le ps h
  have hdist := dist_lt cur i
  rw [htake, length_selected] at hwait
  omega

end Selection

end ZealBringup.RoundRobin
